/-
The performer's authority at the commit.

An operation decides early whether its performer may act and commits late, while
demotions, suspensions and departures of the performer race with it. What a commit finds
is in `CommitSpec`: the state it is stated for is the one just before the commit.
-/
import Fukulow.Consistency

set_option autoImplicit false

namespace Fukulow

/-- The performer of a call that acts on behalf of a member of one organization. -/
def Call.performed_by : Call → Option ActorId
  | .change_member_role p _ _ _ | .suspend_member p _ _ | .reactivate_member p _ _
  | .create_team p _ _ _ | .add_team_member p _ _ _ _ | .change_team_member_role p _ _ _ _
  | .remove_team_member p _ _ _ | .create_channel p _ _ _ _ | .add_channel_member p _ _ _
  | .create_invite p _ _ _ _ _ | .revoke_invite p _ _ => some p
  | _ => none

/-- The calls that `authorize` guards with `InviteMember`. -/
def Call.manages_invites : Call → Bool
  | .create_invite .. | .revoke_invite .. => true
  | _ => false

/-- Do these writes change a row of the organization, as found in `db` or as left behind? -/
def ChangesRowOf (o : OrganizationId) (ws : List Write) (db : Database) : Prop :=
  ∃ k r x, Write.put k r ∈ ws ∧ (db.rows.get k = some x ∨ r = some x) ∧ tenant k x = some o

variable {guarded : Bool} {ws : List Write} {db : Database} {p : ActorId} {o o' : OrganizationId}

/-- A change of one row changes only the organization of that row; the audit record, its other
write, is no row. -/
theorem Change.of_row {e : Event} {k : Key} {r : Option (Row k)} (h : Change ws db p o e [.put k r])
    (hrow : ∀ x, db.rows.get k = some x ∨ r = some x → tenant k x = some o)
    (hchange : ChangesRowOf o' ws db) : o' = o := by
  obtain ⟨k', r', x, hput, hx, ht⟩ := hchange
  rw [h.writes, List.singleton_append, List.mem_cons, List.mem_singleton] at hput
  obtain hput | hput := hput <;> cases hput
  exact Option.some.inj (ht.symm.trans (hrow x hx))

theorem ChangesRowOf.nonempty (h : ChangesRowOf o ws db) : ws ≠ [] := by
  rintro rfl
  obtain ⟨k, r, x, hput, -⟩ := h
  exact List.not_mem_nil hput

/-- What a commit on behalf of `p` finds of `p` in the organization it changes. The policy of the
audit log showed `p` active, `authorize` showed the capability, and the lock on the organization
that the operation still holds keeps both as they were. -/
theorem CommitSpec.authority {q : Request} {reply : Reply} (h : CommitSpec guarded q ws reply db)
    (hp : q.call.performed_by = some p) (hchange : ChangesRowOf o ws db) :
    db.active o p = true
      ∧ (q.call.manages_invites = true → db.authorized o p .inviteMember) := by
  obtain ⟨c, tx⟩ := q
  -- One row, of the organization the call names.
  have one : ∀ {o' : OrganizationId} {e : Event} {k : Key} {r : Option (Row k)},
      Change ws db p o' e [.put k r] →
      (∀ x, db.rows.get k = some x ∨ r = some x → tenant k x = some o') →
      db.active o p = true ∧ o = o' := by
    intro o' e k r hch hrow
    obtain rfl := hch.of_row hrow hchange
    exact ⟨hch.active, rfl⟩
  cases c with
  | change_member_role p' o' a role =>
      cases hp
      obtain rfl | ⟨x, -, -, -, -, hch⟩ := h
      · exact absurd rfl hchange.nonempty
      · exact ⟨(one hch fun _ _ => rfl).1, fun h => by cases h⟩
  | suspend_member p' o' a =>
      cases hp
      obtain ⟨x, -, -, -, hch⟩ := h
      exact ⟨(one hch fun _ _ => rfl).1, fun h => by cases h⟩
  | reactivate_member p' o' a =>
      cases hp
      obtain ⟨x, -, -, hch⟩ := h
      exact ⟨(one hch fun _ _ => rfl).1, fun h => by cases h⟩
  | create_team p' o' name t =>
      cases hp
      obtain ⟨hnew, hch⟩ := h
      refine ⟨(one hch ?_).1, fun h => by cases h⟩
      rintro x (hx | hx)
      · cases hnew.symm.trans hx
      · cases hx
        rfl
  | add_team_member p' o' t a role =>
      cases hp
      obtain ⟨hnew, -, -, hch⟩ := h
      refine ⟨(one hch ?_).1, fun h => by cases h⟩
      rintro x (hx | hx)
      · cases hnew.symm.trans hx
      · cases hx
        rfl
  | change_team_member_role p' o' t a role =>
      cases hp
      obtain rfl | ⟨y, hy, horg, -, hch⟩ := h
      · exact absurd rfl hchange.nonempty
      · refine ⟨(one hch ?_).1, fun h => by cases h⟩
        rintro x (hx | hx)
        · cases hy.symm.trans hx
          exact congrArg some horg
        · cases hx
          exact congrArg some horg
  | remove_team_member p' o' t a =>
      cases hp
      obtain ⟨y, hy, horg, hch⟩ := h
      refine ⟨(one hch ?_).1, fun h => by cases h⟩
      rintro x (hx | hx)
      · cases hy.symm.trans hx
        exact congrArg some horg
      · cases hx
  | create_channel p' o' scope name ch =>
      cases hp
      obtain ⟨hnew, -, hch⟩ := h
      refine ⟨(one hch ?_).1, fun h => by cases h⟩
      rintro x (hx | hx)
      · cases hnew.symm.trans hx
      · cases hx
        rfl
  | add_channel_member p' o' ch a =>
      cases hp
      obtain ⟨hnew, -, -, hch⟩ := h
      refine ⟨(one hch ?_).1, fun h => by cases h⟩
      rintro x (hx | hx)
      · cases hnew.symm.trans hx
      · cases hx
        rfl
  | create_invite p' o' token expires n i =>
      cases hp
      obtain ⟨t, hash, -, hnew, -, hauth, hch⟩ := h
      obtain ⟨hactive, rfl⟩ := one hch (by
        rintro x (hx | hx)
        · cases hnew.symm.trans hx
        · cases hx
          rfl)
      exact ⟨hactive, fun _ => hauth⟩
  | revoke_invite p' o' i =>
      cases hp
      obtain rfl | ⟨i, y, -, hy, horg, -, hauth, hch⟩ := h
      · exact absurd rfl hchange.nonempty
      · obtain ⟨hactive, rfl⟩ := one hch (by
          rintro x (hx | hx)
          · cases hy.symm.trans hx
            exact congrArg some horg
          · cases hx
            exact congrArg some horg)
        exact ⟨hactive, fun _ => hauth⟩
  | _ => cases hp

/-- **Authority at the commit.** Whatever raced with it, a committed change of a row of an
organization on behalf of `p` found `p` an active member there who has not departed, and
with the capability where the call needs it. -/
theorem authority_holds_at_commit {s : System} (h : (engine anyCall).Reachable World.empty s)
    {e : Entry} (he : e ∈ s.world.history) {p : ActorId}
    (hp : e.call.call.performed_by = some p) {o : OrganizationId}
    (hchange : ChangesRowOf o e.outcome.writes e.before) :
    e.before.active o p = true ∧ e.before.departed p = false
      ∧ (e.call.call.manages_invites = true → e.before.authorized o p .inviteMember) := by
  obtain ⟨hc, hspec⟩ := reachable_commit h he
  cases hout : e.outcome with
  | failed reply => exact absurd (hout ▸ rfl) hchange.nonempty
  | aborted => exact absurd (hout ▸ rfl) hchange.nonempty
  | committed ws reply =>
      rw [hout] at hchange
      obtain ⟨hactive, hauth⟩ := (hspec ws reply hout).authority hp hchange
      refine ⟨hactive, ?_, hauth⟩
      rw [← Bool.not_eq_true]
      intro hdep
      simp [hc.not_active hdep o] at hactive

/-- Writes a team of `o`. -/
def puts_team (o : OrganizationId) : Write → Bool
  | .put (.team _) (some r) => r.organization_id = o
  | _ => false

/-- The owner of a new organization creates a team in it. -/
theorem authority_holds_at_commit_team : ∃ (s : System) (e : Entry), e ∈ s.world.history
    ∧ e.call.call.performed_by = some ⟨1⟩ ∧ ChangesRowOf ⟨10⟩ e.outcome.writes e.before
    ∧ e.before.active ⟨10⟩ ⟨1⟩ = true ∧ e.before.departed ⟨1⟩ = false := by
  obtain ⟨s, hs, hcheck⟩ := reachable_of_serve 100
    (founding ++ [⟨.create_team ⟨1⟩ ⟨10⟩ ['t'] ⟨20⟩, ⟨0, 4⟩⟩])
    (fun s => s.world.history.any fun e => e.call.call.performed_by = some ⟨1⟩
      && e.outcome.writes.any (puts_team ⟨10⟩))
    (by decide +kernel)
  simp only [List.any_eq_true, Bool.and_eq_true, decide_eq_true_eq] at hcheck
  obtain ⟨e, he, hp, u, hu, hteam⟩ := hcheck
  unfold puts_team at hteam
  split at hteam
  case h_1 t r =>
    have hchange : ChangesRowOf ⟨10⟩ e.outcome.writes e.before :=
      ⟨.team t, some r, r, hu, .inr rfl, congrArg some (of_decide_eq_true hteam)⟩
    obtain ⟨hactive, hdeparted, -⟩ := authority_holds_at_commit hs he hp hchange
    exact ⟨s, e, he, hp, hchange, hactive, hdeparted⟩
  case h_2 => cases hteam

end Fukulow
