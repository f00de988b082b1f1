/-
`operations/membership.rs` meets its guarantees.

Once the organization is locked `FOR UPDATE`, its membership rows are frozen: what the
operation reads of the target, of the other owners and of the performer is still so at
the commit. That the performer is an active member comes from the last two statements:
an update of another's row needs it, and so does the audit record.
-/
import Fukulow.Guaranteed.Basics
import Fukulow.Operations.Membership

set_option autoImplicit false

namespace Fukulow

open Txn (LockMode)

variable {allowed : Call → Bool} {guarded : Bool} {V : World → Prop}
variable {L : Held} {w : World} {tx : Transaction} {p a : ActorId} {o : OrganizationId}

/-! ## The owners that are read -/

/-- What `active_owners` makes of a state: the owners among the members whom the policy shows. -/
def owners_of (s : Settings) (o : OrganizationId) (db : Database) : List ActorId :=
  db.rows.select fun
    | .member o' a, r =>
        if o' = o ∧ r.role = .owner ∧ r.status = .active
            ∧ organization_members_select s db o' a = true then some a else none
    | _, _ => none

/-- The statement as one read, so that the rules for reads apply to it. -/
theorem active_owners_eq (s : Settings) (o : OrganizationId) :
    active_owners s o = select (owners_of s o) := rfl

/-- An active member sees every active owner, so for one the policy hides nobody, and the check is
on all the owners there are. -/
theorem mem_owners_of (tx : Transaction) {db : Database} (hp : db.active o p = true) {b : ActorId}
    (hb : db.activeOwner o b = true) : b ∈ owners_of (begin tx (.actor p)) o db := by
  obtain ⟨r, hr, hstatus, hrole⟩ := Database.activeOwner_iff.mp hb
  refine Txn.Store.mem_select.mpr ⟨.member o b, r, hr, ?_⟩
  simp [hrole, hstatus, organization_members_select, begin, set_context,
    fukulow_active_organizations, hp]

/-- A failing check, made by an active member, leaves no owner but its target. This is the other
half of the owner rule: it refuses only where it has to. -/
theorem owner_of_check {db : Database} (hp : db.active o p = true) {change : OwnerChange}
    (h : check_owner_change (owners_of (begin tx (.actor p)) o db) change = false) {b : ActorId}
    (hb : db.activeOwner o b = true) : b = change.actor := by
  by_contra hne
  have hpass := check_owner_change_iff.mpr ⟨b, mem_owners_of tx hp hb, hne⟩
  rw [h] at hpass
  cases hpass

/-- The owners that are read are active owners. The policy may leave some out, which errs on the
side of refusing. -/
theorem wp_active_owners {Q : Held → List Write → List ActorId → World → Prop}
    {F : Held → SqlError → World → Prop} {s : Settings}
    (hQ : ∀ w' owners, (rules allowed guarded V).Later L w w' → V w' →
      (∀ b ∈ owners, w'.store.activeOwner o b = true) → Q L [] owners w') :
    (rules allowed guarded V).wp Q F (active_owners s o) L [] w := by
  rw [active_owners, wp_select]
  intro w' hl hv
  refine hQ w' _ hl hv ?_
  intro b hb
  obtain ⟨k, r, hr, hread⟩ := Txn.Store.mem_select.mp hb
  cases k with
  | member o' a' =>
      simp only [Option.ite_none_right_eq_some, Option.some.injEq] at hread
      obtain ⟨⟨rfl, hrole, hstatus, -⟩, rfl⟩ := hread
      exact Database.activeOwner_iff.mpr ⟨r, hr, hstatus, hrole⟩
  | _ => cases hread

/-- `check_owner_change` passes only if another active owner was read, and what was read was there.
-/
theorem ownedWithout_of_check {db : Database} {owners : List ActorId} {change : OwnerChange}
    (howners : ∀ b ∈ owners, db.activeOwner o b = true)
    (h : check_owner_change owners change = true) : db.ownedWithout o change.actor := by
  obtain ⟨b, hb, hne⟩ := check_owner_change_iff.mp h
  exact ⟨b, hne, howners b hb⟩

/-! ## The membership that is read and updated -/

/-- What the membership read shows is the membership: its role and its status come from one row. -/
theorem member_read {s : Settings} {db : Database} {role : OrganizationRole}
    {status : MemberStatus}
    (h : ((db.member o a).filter fun _ => organization_members_select s db o a).map
      (fun r => (r.role, r.status)) = some (role, status)) :
    ∃ r, db.member o a = some r ∧ r.role = role ∧ r.status = status := by
  obtain ⟨r, hr, hpair⟩ := Option.map_eq_some_iff.mp h
  cases hpair
  exact ⟨r, (Option.filter_eq_some_iff.mp hr).1, rfl, rfl⟩

/-- The update and its record, under the organization's lock: the row that was read is replaced, on
behalf of an active member. Neither of the two statements tests the performer by itself. The update
is shown only rows that its policies let through, and for any other performer the record after it
is refused, so whoever gets to the end is a member. -/
theorem wp_update_member_and_write {ε : Type} [FromSql ε]
    {Q : Held → List Write → Unit → World → Prop} {f : MemberRow → MemberRow} {e : Event}
    {r : MemberRow} (he : e.leaving = false) (hf : (f r).status ≠ .left)
    (horg : L.row (.organization o) .update) (hr : w.store.member o a = some r)
    (hQ : ∀ L' w', L ⊆ L' → (rules allowed guarded V).Later L w w' → V w' →
      L'.row (.member o a) .noKeyUpdate → w'.store.active o p = true →
      Q L' [.put (.member o a) (some (f r)), .log ⟨o, p, e⟩] () w') :
    (rules allowed guarded V).wp Q anyError (do
      (update_member (begin tx (.actor p)) o a f : Sql SqlError Unit)
      (e.write (begin tx (.actor p)) o p : Sql SqlError Unit) : Sql ε Unit) L [] w := by
  rw [Txn.Rules.wp_bind, wp_lift, update_member, Txn.Rules.wp_bind]
  refine wp_update (fun _ _ _ => trivial) (by simp) ?_ ?_
  · -- The update missed its row, so the performer was not active; the record is refused.
    intro w₁ L₂ w₂ hl₁ hv₁ hL₂ hl₂ hv₂ hmiss
    rw [Txn.Rules.wp_pure, wp_lift]
    refine wp_event_write (fun _ _ _ => trivial) ?_
    intro w₃ L₄ w₄ hl₃ hv₃ hadm _ _ _ _ _
    have hact₃ : w₃.store.active o p = true := audit_admits he hadm
    have hact₁ : w₁.store.active o p = true := by
      rwa [← frozen_active horg (hl₂.trans (hl₃.mono hL₂)) p]
    have hr₁ : w₁.store.member o a = some r := (frozen_member horg hl₁ a).trans hr
    have hr₂ : w₂.store.member o a = some r := (frozen_member horg hl₂ a).trans hr₁
    have hvis : organization_members_select (begin tx (.actor p)) w₁.store o a
        && organization_members_update_using (begin tx (.actor p)) w₁.store o a = true := by
      simp [organization_members_select, organization_members_update_using, begin, set_context,
        fukulow_active_organizations, hact₁]
    have := hmiss r hr₁ (by simpa using hvis) r hr₂
    cases this
  · intro w₁ L₂ w₂ old new hl₁ hv₁ hL₂ hl₂ hv₂ hrow hold _ hset
    -- The version that was updated is the one that was read, for the organization is locked.
    have hold' : old = r := by
      have hr₂ : w₂.store.member o a = some r :=
        (frozen_member horg (hl₁.trans hl₂) a).trans hr
      exact Option.some.inj (hold.symm.trans hr₂)
    subst hold'
    simp only [Bool.and_eq_true] at hset
    split at hset
    case isFalse => cases hset
    case isTrue hguard =>
      cases hset
      -- The policy lets a member update others, or someone close its own membership; the new
      -- status is not `left`, so it was the first.
      have hact₁ : w₁.store.active o p = true := by
        have hcheck := hguard.2
        simp only [organization_members_update_check, hf, decide_false, Bool.and_false,
          Bool.false_and, Bool.or_false] at hcheck
        exact hcheck
      rw [Txn.Rules.wp_pure, wp_lift]
      refine wp_event_write (fun _ _ _ => trivial) ?_
      intro w₃ L₄ w₄ hl₃ hv₃ _ hL₄ hl₄ hv₄ _ _
      have hlater : (rules allowed guarded V).Later L w₁ w₄ :=
        hl₂.trans ((hl₃.mono hL₂).trans (hl₄.mono hL₂))
      refine hQ L₄ w₄ (List.Subset.trans hL₂ hL₄) (hl₁.trans hlater) hv₄ (hL₄ hrow) ?_
      rwa [frozen_active horg hlater p]

/-- The two writes of a membership change, as its guarantee states them. A status may become
`active` only by a reactivation, or stay so; this is what the departures of others rely on. -/
theorem Ends.member_change {c : Call} {spec : Unit → List Write → Database → Prop} {r r' : MemberRow}
    {e : Event} (horg : L.row (.organization o) .update) (hrow : L.row (.member o a) .noKeyUpdate)
    (hr : w.store.member o a = some r) (hp : w.store.active o p = true)
    (hact : r'.status = .active → r.status = .active ∨ ∃ p, c = .reactivate_member p o a)
    (hspec : ∀ v, (rules allowed guarded V).Later L w v → v.store.member o a = some r →
      Change [.put (.member o a) (some r'), .log ⟨o, p, e⟩] v.store p o e
        [.put (.member o a) (some r')] →
      spec () [.put (.member o a) (some r'), .log ⟨o, p, e⟩] v.store) :
    Ends allowed guarded V c spec L [.put (.member o a) (some r'), .log ⟨o, p, e⟩] () w := by
  have hkeep : ∀ v, (rules allowed guarded V).Later L w v → v.store.member o a = some r :=
    fun v hl => (frozen_member horg hl a).trans hr
  refine Ends.change (fun v hl _ => (frozen_active horg hl p).trans hp) ?_
    fun v hl _ hchange => hspec v hl (hkeep v hl) hchange
  intro v hl _
  refine Covered.update (x := r) rfl (by decide) hrow (hkeep v hl) ?_ ⟨rfl, rfl⟩ ?_
  · intro o' ho
    cases ho
    exact ⟨_, horg⟩
  · rintro _ _ heq hnew
    cases heq
    rw [view_put_active] at hnew
    obtain hold | hcall := hact (by simpa using hnew)
    · exact .inl (Database.active_iff.mpr ⟨r, hkeep v hl, hold⟩)
    · exact .inr (.inr hcall)

/-! ## The operations -/

/-- **`change_member_role`.** The role that is there already is no change. An active owner is
demoted only after the owner check, which read another owner, and the organization's lock keeps
that one an owner to the commit. -/
theorem wp_change_member_role {c : Call} {role : OrganizationRole} :
    (rules allowed guarded V).wp
      (Ends allowed guarded V c fun _ ws db => RoleChanged ws db p o a role) anyError
      (change_member_role tx p o a role) L [] w := by
  unfold change_member_role
  refine wp_opening ?_
  intro L₁ w₁ _ hv₁ horg _
  rw [Txn.Rules.wp_bind, wp_lift, member, wp_select]
  intro w₂ hl₂ hv₂
  dsimp only
  split
  case h_1 => trivial
  case h_2 from_ status hread =>
    obtain ⟨r, hr₂, rfl, rfl⟩ := member_read hread
    split
    case isTrue => trivial
    case isFalse hleft =>
      split
      case isTrue => exact Ends.nothing fun _ _ _ => .inl rfl
      case isFalse hrole =>
        -- The owner check, where there is one, leaves its fact at the world `w₃`.
        suffices hrest : ∀ w₃, (rules allowed guarded V).Later L₁ w₂ w₃ → V w₃ →
            (w₃.store.activeOwner o a = true → role ≠ .owner → w₃.store.ownedWithout o a) →
            (rules allowed guarded V).wp
              (Ends allowed guarded V c fun _ ws db => RoleChanged ws db p o a role) anyError
              (do
                (update_member (begin tx (.actor p)) o a (fun r => { r with role := role }) :
                  Sql SqlError Unit)
                ((Event.member_role_changed a r.role role).write (begin tx (.actor p)) o p :
                  Sql SqlError Unit) : Sql ChangeMemberRoleError Unit) L₁ [] w₃ by
          split
          case isTrue hdemote =>
            rw [Txn.Rules.wp_bind, wp_lift]
            refine wp_active_owners ?_
            intro w₃ owners hl₃ hv₃ howners
            rw [Txn.Rules.wp_bind]
            refine wp_ensure (fun hcheck => ?_) fun _ => trivial
            exact hrest w₃ hl₃ hv₃ fun _ _ => ownedWithout_of_check howners hcheck
          case isFalse hkeep =>
            -- No check was made, for no active owner loses the role.
            refine hrest w₂ .refl hv₂ fun howner hne => ?_
            obtain ⟨r', hr', hstatus, howner⟩ := Database.activeOwner_iff.mp howner
            cases hr₂.symm.trans hr'
            exact absurd ⟨hstatus, howner, hne⟩ hkeep
        intro w₃ hl₃ hv₃ howned
        have hr₃ : w₃.store.member o a = some r := (frozen_member horg hl₃ a).trans hr₂
        refine wp_update_member_and_write (r := r) rfl hleft horg hr₃ ?_
        intro L₄ w₄ hL₄ hl₄ hv₄ hrow hp
        refine Ends.member_change (hL₄ horg) hrow ((frozen_member horg hl₄ a).trans hr₃) hp
          .inl ?_
        intro v hl hrv hchange
        refine .inr ⟨r, hrv, hleft, hrole, ?_, hchange⟩
        have hlater : (rules allowed guarded V).Later L₁ w₃ v := hl₄.trans (hl.mono hL₄)
        intro howner hne
        rw [frozen_activeOwner horg hlater] at howner
        obtain ⟨b, hb, hbo⟩ := howned howner hne
        exact ⟨b, hb, by rwa [frozen_activeOwner horg hlater]⟩

/-- **`suspend_member`.** Whoever has the role of an owner is suspended only after the owner check,
and the organization's lock keeps the other owner. The target was active when it was read, so it is
at the commit. -/
theorem wp_suspend_member {c : Call} :
    (rules allowed guarded V).wp
      (Ends allowed guarded V c fun _ ws db => MemberSuspended ws db p o a) anyError
      (suspend_member tx p o a) L [] w := by
  unfold suspend_member
  refine wp_opening ?_
  intro L₁ w₁ _ hv₁ horg _
  rw [Txn.Rules.wp_bind, wp_lift, member, wp_select]
  intro w₂ hl₂ hv₂
  dsimp only
  split
  case h_1 => trivial
  case h_2 role status hread =>
    obtain ⟨r, hr₂, rfl, rfl⟩ := member_read hread
    split
    case isTrue => trivial
    case isFalse hactive =>
      have hactive : r.status = .active := not_not.mp hactive
      -- With or without the owner check, what is left is the update and its record.
      suffices hrest : ∀ w₃, (rules allowed guarded V).Later L₁ w₂ w₃ → V w₃ →
          (r.role = .owner → w₃.store.ownedWithout o a) →
          (rules allowed guarded V).wp
            (Ends allowed guarded V c fun _ ws db => MemberSuspended ws db p o a) anyError
            (do
              (update_member (begin tx (.actor p)) o a (fun r => { r with status := .suspended }) :
                Sql SqlError Unit)
              ((Event.member_suspended a).write (begin tx (.actor p)) o p :
                Sql SqlError Unit) : Sql SuspendMemberError Unit) L₁ [] w₃ by
        split
        case isTrue =>
          rw [Txn.Rules.wp_bind, wp_lift]
          refine wp_active_owners ?_
          intro w₃ owners hl₃ hv₃ howners
          rw [Txn.Rules.wp_bind]
          refine wp_ensure (fun hcheck => ?_) fun _ => trivial
          exact hrest w₃ hl₃ hv₃ fun _ => ownedWithout_of_check howners hcheck
        case isFalse hrole => exact hrest w₂ .refl hv₂ fun howner => absurd howner hrole
      intro w₃ hl₃ hv₃ howned
      have hr₃ : w₃.store.member o a = some r := (frozen_member horg hl₃ a).trans hr₂
      refine wp_update_member_and_write (r := r) rfl (by simp) horg hr₃ ?_
      intro L₄ w₄ hL₄ hl₄ hv₄ hrow hp
      refine Ends.member_change (hL₄ horg) hrow ((frozen_member horg hl₄ a).trans hr₃) hp
        (fun h => by cases h) ?_
      intro v hl hrv hchange
      refine ⟨r, hrv, hactive, ?_, hchange⟩
      have hlater : (rules allowed guarded V).Later L₁ w₃ v := hl₄.trans (hl.mono hL₄)
      intro howner
      obtain ⟨b, hb, hbo⟩ := howned howner
      exact ⟨b, hb, by rwa [frozen_activeOwner horg hlater]⟩

/-- **`reactivate_member`.** The target was suspended when it was read, so it is at the commit.
Where `lock_actor` saw no actor the call goes on without its lock, and this proof uses none. -/
theorem wp_reactivate_member :
    (rules allowed guarded V).wp
      (Ends allowed guarded V (.reactivate_member p o a)
        fun _ ws db => MemberReactivated ws db p o a) anyError
      (reactivate_member tx p o a) L [] w := by
  unfold reactivate_member
  refine wp_opening ?_
  intro L₁ w₁ departed hv₁ horg _
  rw [Txn.Rules.wp_bind, wp_lift, member, wp_select]
  intro w₂ hl₂ hv₂
  split
  case h_1 => trivial
  case h_2 role status hread =>
    obtain ⟨r, hr₂, rfl, rfl⟩ := member_read hread
    split
    case isTrue => trivial
    case isFalse =>
      split
      case isTrue => trivial
      case isFalse hsuspended =>
        have hsuspended : r.status = .suspended := not_not.mp hsuspended
        refine wp_update_member_and_write (r := r) rfl (by simp) horg hr₂ ?_
        intro L₃ w₃ hL₃ hl₃ hv₃ hrow hp
        refine Ends.member_change (hL₃ horg) hrow ((frozen_member horg hl₃ a).trans hr₂) hp
          (fun _ => .inr ⟨p, rfl⟩) ?_
        intro v _ hrv hchange
        exact ⟨r, hrv, hsuspended, hchange⟩

end Fukulow
