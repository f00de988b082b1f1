/-
`operations/teams.rs` meets its guarantees.

All four operations run under the organization's lock `FOR UPDATE`, so the team and the
membership they read stay, and the record they end with shows that the performer is an
active member.
-/
import Fukulow.Guaranteed.Membership
import Fukulow.Operations.Teams

set_option autoImplicit false

namespace Fukulow

open Txn (LockMode)

variable {allowed : Call → Bool} {guarded : Bool} {V : World → Prop}
variable {L : Held} {w : World} {tx : Transaction} {p a : ActorId} {o : OrganizationId}
variable {t : TeamId}

/-- **`create_team`.** One insert and its record: the insert's lock keeps the team new, and the
record shows that the performer is a member. -/
theorem wp_create_team {c : Call} {name : Text} :
    (rules allowed guarded V).wp
      (Ends allowed guarded V c fun _ ws db => TeamCreated ws db p o name t) anyError
      (create_team tx p o name t) L [] w := by
  unfold create_team
  refine wp_opening ?_
  intro L₁ w₁ _ hv₁ horg _
  rw [Txn.Rules.wp_bind, wp_lift]
  refine wp_insert (fun _ _ _ => trivial) (by simp) ?_
  intro w₂ L₃ w₃ hl₂ hv₂ hL₃ hl₃ hv₃ _ hins
  rw [Txn.Rules.wp_bind, wp_lift]
  refine wp_write_inserted (fun _ _ _ => trivial) rfl (by simp) (hL₃ horg) rfl hins
    (fun _ h => by cases h) ?_
  exact fun v _ _ hnew hchange => ⟨hnew, hchange⟩

/-- What `select_team` shows is a team of the organization. The policy may hide a team, but shows
none that is not there. -/
theorem team_read {s : Settings} {db : Database}
    (h : ((db.team t).any fun r => r.organization_id = o && teams_select s db r) = true) :
    ∃ r, db.team t = some r ∧ r.organization_id = o := by
  obtain ⟨r, hr, hboth⟩ := (Option.any_eq_true _ _).mp h
  simp only [Bool.and_eq_true, decide_eq_true_eq] at hboth
  exact ⟨r, hr, hboth.1⟩

/-- **`add_team_member`.** The team and the membership of the target are read under the
organization's lock, which freezes both. Somebody who is in the team already is reported, and
nothing is written. -/
theorem wp_add_team_member {c : Call} {role : TeamRole} :
    (rules allowed guarded V).wp
      (Ends allowed guarded V c fun _ ws db => TeamMemberAdded ws db p o t a role) anyError
      (add_team_member tx p o t a role) L [] w := by
  unfold add_team_member
  refine wp_opening ?_
  intro L₁ w₁ departed hv₁ horg _
  rw [Txn.Rules.wp_bind, wp_lift, select_team, wp_select]
  intro w₂ hl₂ hv₂
  rw [Txn.Rules.wp_bind, wp_lift, member, wp_select]
  intro w₃ hl₃ hv₃
  dsimp only
  split
  case isTrue => trivial
  case isFalse hteam =>
    obtain ⟨r, hr, hro⟩ := team_read (by simpa using hteam)
    split
    case h_1 => trivial
    case h_2 role' status hread =>
      obtain ⟨m, hm, -, rfl⟩ := member_read hread
      split
      case isTrue => trivial
      case isFalse =>
        split
        case isTrue => trivial
        case isFalse hactive =>
          rw [Txn.Rules.wp_bind, wp_lift]
          refine wp_insert_or_nothing (fun _ _ _ => trivial) (by simp) ?_ ?_
          · intro L₄ w₄ _ _ _ _ _
            trivial
          · intro w₄ L₅ w₅ hl₄ hv₄ hL₅ hl₅ hv₅ _ hins
            rw [Txn.Rules.wp_bind]
            refine wp_ensure (fun _ => ?_) fun _ => trivial
            rw [wp_lift]
            refine wp_write_inserted (a := ()) (fun _ _ _ => trivial) rfl (by simp) (hL₅ horg) rfl hins
              ?_ ?_
            · intro b hb
              cases hb
              exact ⟨_, (hins.references _ List.mem_cons_self).1⟩
            · -- Team and membership were read before the insert, under the lock that keeps them.
              intro v hl _ hnew hchange
              have hlater : (rules allowed guarded V).Later L₁ w₃ v :=
                hl₄.trans (hl₅.trans (hl.mono hL₅))
              refine ⟨hnew, ⟨r, ?_, hro⟩, ?_, hchange⟩
              · exact (frozen_tenant (k := .team t) (x := r) horg (hl₃.trans hlater)
                  (congrArg some hro)).mpr hr
              · rw [frozen_active horg hlater]
                exact Database.active_iff.mpr ⟨m, hm, not_not.mp hactive⟩

/-- What the read of a team membership shows is a row of the organization; the filter asks for that
before the policy is asked. -/
theorem team_member_read {s : Settings} {db : Database} {r : TeamMemberRow}
    (h : ((db.teamMember t a).filter fun r =>
      r.organization_id = o && team_members_select s db a r) = some r) :
    db.teamMember t a = some r ∧ r.organization_id = o := by
  obtain ⟨hr, hboth⟩ := Option.filter_eq_some_iff.mp h
  simp only [Bool.and_eq_true, decide_eq_true_eq] at hboth
  exact ⟨hr, hboth.1⟩

/-- A change of a team membership that its organization's lock froze. The row that was read is the
one before the commit, so both what covers the write and what the specification says may speak of
it. -/
theorem Ends.team_member_change {c : Call} {spec : Unit → List Write → Database → Prop}
    {r : TeamMemberRow} {x : Option TeamMemberRow} {e : Event}
    (horg : L.row (.organization o) .update) (hr : w.store.teamMember t a = some r)
    (hro : r.organization_id = o) (hp : w.store.active o p = true)
    (hcov : ∀ v : World, v.store.teamMember t a = some r → Covered c L v.store (.teamMember t a) x)
    (hspec : ∀ v : World, v.store.teamMember t a = some r →
      Change [.put (.teamMember t a) x, .log ⟨o, p, e⟩] v.store p o e [.put (.teamMember t a) x] →
      spec () [.put (.teamMember t a) x, .log ⟨o, p, e⟩] v.store) :
    Ends allowed guarded V c spec L [.put (.teamMember t a) x, .log ⟨o, p, e⟩] () w := by
  have hkeep : ∀ v, (rules allowed guarded V).Later L w v → v.store.teamMember t a = some r :=
    fun v hl => (frozen_tenant (k := .teamMember t a) (x := r) horg hl (congrArg some hro)).mpr hr
  exact Ends.change (fun v hl _ => (frozen_active horg hl p).trans hp)
    (fun v hl _ => hcov v (hkeep v hl)) fun v hl _ hchange => hspec v (hkeep v hl) hchange

/-- **`change_team_member_role`.** A role that is the same already is no change, and writes
nothing. The update may miss its row only for somebody whom the policy does not let see it, and
then the record is refused too. -/
theorem wp_change_team_member_role {c : Call} {role : TeamRole} :
    (rules allowed guarded V).wp
      (Ends allowed guarded V c fun _ ws db => TeamMemberRoleChanged ws db p o t a role) anyError
      (change_team_member_role tx p o t a role) L [] w := by
  unfold change_team_member_role
  refine wp_opening ?_
  intro L₁ w₁ _ hv₁ horg _
  rw [Txn.Rules.wp_bind, wp_lift, wp_select]
  intro w₂ hl₂ hv₂
  split
  case h_1 => trivial
  case h_2 r hread =>
    obtain ⟨hr₂, hro⟩ := team_member_read hread
    have hkeep : ∀ v, (rules allowed guarded V).Later L₁ w₂ v → v.store.teamMember t a = some r :=
      fun v hl => (frozen_tenant (k := .teamMember t a) (x := r) horg hl (congrArg some hro)).mpr hr₂
    dsimp only
    split
    case isTrue => exact Ends.nothing fun _ _ _ => .inl rfl
    case isFalse hrole =>
      rw [Txn.Rules.wp_bind, wp_lift]
      refine wp_update (fun _ _ _ => trivial) (by simp) ?_ ?_
      · -- The update missed its row, so the performer was not active; the record is refused.
        intro w₃ L₄ w₄ hl₃ hv₃ hL₄ hl₄ hv₄ hmiss
        rw [wp_lift]
        refine wp_write_locked (fun _ _ _ => trivial) rfl (by simp) (hL₄ horg) ?_
        intro L₅ w₅ _ hl₅ _ hp
        have hp₃ : w₃.store.active o p = true := by
          rwa [← frozen_active horg (hl₄.trans (hl₅.mono hL₄)) p]
        have hvis : team_members_select (begin tx (.actor p)) w₃.store a r
            && team_members_update (begin tx (.actor p)) w₃.store r = true := by
          simp [team_members_select, team_members_update, begin, set_context,
            fukulow_active_organizations, hro, hp₃]
        have := hmiss r (hkeep w₃ hl₃) (by simpa [hro] using hvis) r (hkeep w₄ (hl₃.trans hl₄))
        simp [hro] at this
      · intro w₃ L₄ w₄ old new hl₃ hv₃ hL₄ hl₄ hv₄ hrow hold _ hset
        cases hold.symm.trans (hkeep w₄ (hl₃.trans hl₄))
        split at hset
        case isFalse => cases hset
        case isTrue =>
          cases hset
          rw [wp_lift]
          refine wp_write_locked (fun _ _ _ => trivial) rfl (by simp) (hL₄ horg) ?_
          intro L₅ w₅ hL₅ hl₅ hv₅ hp
          have hr₅ : w₅.store.teamMember t a = some r :=
            hkeep w₅ (hl₃.trans (hl₄.trans (hl₅.mono hL₄)))
          -- The row, locked, and the organization, locked, are what the discipline asks for.
          refine Ends.team_member_change (hL₅ (hL₄ horg)) hr₅ hro hp ?_ ?_
          · intro v hrv
            refine Covered.update (x := r) rfl (by decide) (hL₅ hrow) hrv ?_ ⟨rfl, rfl⟩
              (by rintro _ _ ⟨⟩)
            intro o' ho'
            cases ho'
            exact ⟨_, hro ▸ hL₅ (hL₄ horg)⟩
          · exact fun v hrv hchange => .inr ⟨r, hrv, hro, hrole, hchange⟩

/-- **`remove_team_member`.** The `DELETE` finds one row or none, and goes on only with one, which
it has locked. The organization's lock keeps it there until it is deleted. -/
theorem wp_remove_team_member {c : Call} :
    (rules allowed guarded V).wp
      (Ends allowed guarded V c fun _ ws db => TeamMemberRemoved ws db p o t a) anyError
      (remove_team_member tx p o t a) L [] w := by
  unfold remove_team_member
  refine wp_opening ?_
  intro L₁ w₁ _ hv₁ horg _
  rw [Txn.Rules.wp_bind, wp_lift]
  refine wp_delete_where ?_ ?_ (fun _ _ _ _ _ _ => List.not_mem_nil) ?_
  · intro db db' x h
    simp only [h]
  · intro db
    split <;> simp
  intro w₂ L₃ w₃ hl₂ hv₂ hL₃ hl₃ hv₃ hrows
  rw [Txn.Rules.wp_bind]
  refine wp_ensure (fun hdeleted => ?_) fun _ => trivial
  -- One row was found, and it was still there.
  split at hdeleted
  case isFalse => simp at hdeleted
  case isTrue hfound =>
    obtain ⟨r, hr₃, hro⟩ : ∃ r, w₃.store.teamMember t a = some r ∧ r.organization_id = o := by
      simpa [Option.any_eq_true] using hdeleted
    -- So what it has written is the deletion of this row and nothing else.
    have hdeletions : [] ++ deletions (fun team => Key.teamMember team a)
        ((if (Option.any (fun r => decide (r.organization_id = o)
            && team_members_select (begin tx (.actor p)) (view [] w₂.store) a r
            && team_members_delete (begin tx (.actor p)) (view [] w₂.store) a r)
            ((view [] w₂.store).teamMember t a)) = true then [t] else []).filter fun team =>
          (w₃.store.teamMember team a).any fun r => r.organization_id = o)
        = [.put (.teamMember t a) none] := by
      rw [if_pos hfound]
      simp [deletions, hr₃, hro]
    rw [hdeletions, wp_lift]
    refine wp_write_locked (fun _ _ _ => trivial) rfl (by simp) (hL₃ horg) ?_
    intro L₄ w₄ hL₄ hl₄ hv₄ hp
    have hrow : L₄.row (.teamMember t a) .update :=
      hL₄ (hrows t (by rw [if_pos hfound]; exact List.mem_singleton_self t))
    have hr₄ : w₄.store.teamMember t a = some r :=
      (frozen_tenant (k := .teamMember t a) (x := r) (hL₃ horg) hl₄ (congrArg some hro)).mpr hr₃
    refine Ends.team_member_change (hL₄ (hL₃ horg)) hr₄ hro hp ?_ ?_
    · intro v hrv
      refine .delete hrow ?_
      intro x hx
      obtain rfl : x = r := Option.some.inj (hx.symm.trans hrv)
      exact ⟨_, hro ▸ hL₄ (hL₃ horg)⟩
    · exact fun v hrv hchange => ⟨r, hrv, hro, hchange⟩

end Fukulow
