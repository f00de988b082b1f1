/-
`operations/membership.rs`, run alone.

Each operation is described completely: when it succeeds and what it leaves, and when it
answers with each of its errors. The last statement of all three is the audit record, whose
policy sees the membership as the update has just left it. A performer who suspends itself
is no longer a member by then.
-/
import Fukulow.Serial.Rules
import Fukulow.References

set_option autoImplicit false

namespace Fukulow

variable {db₀ db : Database} {tx : Transaction} {p a : ActorId} {o : OrganizationId}

/-! ## The update and its record -/

/-- The state in which the membership of `a` in `o` has become `r`, on record as `e` by `p`. -/
def Database.member_changed (db : Database) (p : ActorId) (o : OrganizationId) (a : ActorId)
    (r : MemberRow) (e : Event) : Database :=
  (Write.log ⟨o, p, e⟩).apply ((Write.put (.member o a) (some r)).apply db)

/-- An active member's change of a membership goes through, unless the record finds the performer
itself no longer active. The three cases are those of the target: the performer who stays active,
the performer who does not, and somebody else. -/
theorem solo_update_member_and_write {ε : Type} [FromSql ε] {Q : Unit → Database → Prop}
    {F : ε → Prop} {f : MemberRow → MemberRow} {e : Event} {r : MemberRow}
    (he : e.leaving = false) (href : References db) (hp : db.active o p = true)
    (hr : db.member o a = some r) :
    (do (update_member (begin tx (.actor p)) o a f : Sql SqlError Unit)
        (e.write (begin tx (.actor p)) o p : Sql SqlError Unit) : Sql ε Unit).Solo
      Write.apply db₀ Q F db ↔
      (a = p → (f r).status = .active → Q () (db.member_changed p o a (f r) e))
        ∧ (a = p → (f r).status ≠ .active → F (FromSql.database .insufficientPrivilege))
        ∧ (a ≠ p → Q () (db.member_changed p o a (f r) e)) := by
  have hs : (begin tx (.actor p)).actor_id = some p := rfl
  have hactive : fukulow_active_organizations (begin tx (.actor p)) db o = true := by
    rwa [active_organizations_actor hs]
  have hguard : fukulow_guard_inactive_member_role (begin tx (.actor p)) a r (f r) = true := by
    by_cases hap : a = p
    · -- The performer's own membership is active.
      subst hap
      obtain ⟨r', hr', hstatus⟩ := Database.active_iff.mp hp
      cases hr.symm.trans hr'
      simp [fukulow_guard_inactive_member_role, hstatus]
    · have hpa : p ≠ a := fun h => hap h.symm
      simp [fukulow_guard_inactive_member_role, hs, hpa]
  obtain ⟨r', hr', hstatus⟩ := Database.active_iff.mp hp
  obtain ⟨horg, hactor⟩ := href.member o p r' hr'
  rw [Txn.Prog.solo_bind, solo_lift, solo_update_member hr
      (by rw [organization_members_update_using, hactive, Bool.true_or]) hguard
      (by rw [organization_members_update_check, hactive, Bool.true_or]),
    solo_write_member he
      ((put_get_of_ne (show Key.organization o ≠ .member o a from (by rintro ⟨⟩))).trans_ne horg)
      ((put_get_of_ne (show Key.actor p ≠ .member o a from (by rintro ⟨⟩))).trans_ne hactor)]
  by_cases hap : a = p
  · subst hap
    rw [put_active_self]
    simp [Database.member_changed]
  · have hne : (Key.member o p) ≠ .member o a := by simpa using fun h => hap h.symm
    simp [put_active_of_ne hne, hp, hap, Database.member_changed]

/-! ## The operations -/

section Operations

theorem activeOwner_eq {r : MemberRow} (hr : db.member o a = some r) :
    db.activeOwner o a = true ↔ r.status = .active ∧ r.role = .owner := by
  simp [Database.activeOwner, hr]

variable (href : References db)
include href

/-- **`change_member_role`, alone**: complete in both directions. A role that is held already
changes nothing and records nothing, and the owner rule is asked only where an active owner is to
become something else. -/
theorem solo_change_member_role {role : OrganizationRole} :
    (change_member_role tx p o a role).Solo Write.apply db₀
      (fun _ t => db.active o p = true ∧ ∃ r, db.member o a = some r ∧ r.status ≠ .left
        ∧ (r.role = role ∧ t = db ∨ r.role ≠ role
          ∧ (db.activeOwner o a = true → role ≠ .owner → db.ownedWithout o a)
          ∧ t = db.member_changed p o a { r with role := role } (.member_role_changed a r.role role)))
      (fun e => e = .notFound
          ∧ (db.active o p = true → ∀ r, db.member o a = some r → r.status = .left)
        ∨ e = .lastOwner ∧ db.active o p = true ∧ db.activeOwner o a = true ∧ role ≠ .owner
          ∧ ¬ db.ownedWithout o a) db := by
  rw [change_member_role, Txn.Prog.solo_bind, solo_lift, solo_lock_actor, Txn.Prog.solo_bind,
    solo_lift, solo_lock_organization rfl href.organization_of_active]
  cases hp : db.active o p with
  | false => simp
  | true =>
      simp only [Bool.not_true, Bool.false_eq_true, if_false]
      rw [Txn.Prog.solo_bind, solo_lift, solo_member rfl hp]
      cases hr : db.member o a with
      | none => simp
      | some r =>
          simp only [Option.map_some]
          by_cases hleft : r.status = .left
          · simp [hleft]
          by_cases hrole : r.role = role
          · simp [hleft, hrole]
          simp only [hleft, hrole, if_false]
          have howner := activeOwner_eq hr
          -- A role is no status, so the performer is still active when it is recorded.
          have hchange : (do
              (update_member (begin tx (.actor p)) o a fun r => { r with role := role } :
                Sql SqlError Unit)
              ((Event.member_role_changed a r.role role).write (begin tx (.actor p)) o p :
                Sql SqlError Unit) : Sql ChangeMemberRoleError Unit).Solo Write.apply db₀
              (fun _ t => t = db.member_changed p o a { r with role := role }
                (.member_role_changed a r.role role)) (fun _ => False) db := by
            rw [solo_update_member_and_write rfl href hp hr]
            refine ⟨fun _ _ => rfl, fun hap hne => hne ?_, fun _ => rfl⟩
            subst hap
            obtain ⟨r', hr', hstatus⟩ := Database.active_iff.mp hp
            cases hr.symm.trans hr'
            exact hstatus
          split
          · -- An active owner is demoted.
            rename_i hdemoted
            rw [solo_check_owners hp]
            refine ⟨fun hother => Txn.Prog.solo_mono hchange ?_ fun _ => False.elim, ?_⟩
            · exact fun _ t ht => ⟨trivial, r, rfl, hleft, .inr ⟨hrole, fun _ _ => hother, ht⟩⟩
            · exact fun hnone => .inr ⟨rfl, trivial, howner.mpr ⟨hdemoted.1, hdemoted.2.1⟩,
                hdemoted.2.2, hnone⟩
          · rename_i hkept
            refine Txn.Prog.solo_mono hchange ?_ fun _ => False.elim
            refine fun _ t ht => ⟨trivial, r, rfl, hleft, .inr ⟨hrole, fun ha hne => ?_, ht⟩⟩
            exact absurd ⟨(howner.mp ha).1, (howner.mp ha).2, hne⟩ hkept

/-- **`suspend_member`, alone.** Nobody suspends itself: the record of it would come from someone
who is no longer a member, and its policy refuses it. -/
theorem solo_suspend_member :
    (suspend_member tx p o a).Solo Write.apply db₀
      (fun _ t => db.active o p = true ∧ a ≠ p ∧ ∃ r, db.member o a = some r ∧ r.status = .active
        ∧ (db.activeOwner o a = true → db.ownedWithout o a)
        ∧ t = db.member_changed p o a { r with status := .suspended } (.member_suspended a))
      (fun e => e = .notFound ∧ (db.active o p = true → db.member o a = none)
        ∨ e = .notActive ∧ db.active o p = true ∧ db.active o a = false
        ∨ e = .lastOwner ∧ db.active o p = true ∧ db.activeOwner o a = true
          ∧ ¬ db.ownedWithout o a
        ∨ e = .database .insufficientPrivilege ∧ a = p ∧ db.active o p = true
          ∧ (db.activeOwner o a = true → db.ownedWithout o a)) db := by
  rw [suspend_member, Txn.Prog.solo_bind, solo_lift, solo_lock_actor, Txn.Prog.solo_bind,
    solo_lift, solo_lock_organization rfl href.organization_of_active]
  cases hp : db.active o p with
  | false => simp
  | true =>
      simp only [Bool.not_true, Bool.false_eq_true, if_false]
      rw [Txn.Prog.solo_bind, solo_lift, solo_member rfl hp]
      cases hr : db.member o a with
      | none => simp
      | some r =>
          simp only [Option.map_some]
          by_cases hstatus : r.status = .active
          case neg => simp [hstatus, Database.active, hr]
          simp only [hstatus, ne_eq, not_true_eq_false, if_false]
          have howner := activeOwner_eq hr
          -- The performer's own suspension is written, and then fails at its record.
          have hchange : (do
              (update_member (begin tx (.actor p)) o a fun r => { r with status := .suspended } :
                Sql SqlError Unit)
              ((Event.member_suspended a).write (begin tx (.actor p)) o p : Sql SqlError Unit) :
                Sql SuspendMemberError Unit).Solo Write.apply db₀
              (fun _ t => a ≠ p ∧ t = db.member_changed p o a { r with status := .suspended }
                (.member_suspended a))
              (fun e => e = .database .insufficientPrivilege ∧ a = p) db := by
            rw [solo_update_member_and_write rfl href hp hr]
            exact ⟨fun _ h => (by cases h), fun hap _ => ⟨rfl, hap⟩, fun hne => ⟨hne, rfl⟩⟩
          split
          · -- An active owner is suspended.
            rename_i hrole
            rw [solo_check_owners hp]
            refine ⟨fun hother => Txn.Prog.solo_mono hchange ?_ ?_, ?_⟩
            · exact fun _ t ht => ⟨trivial, ht.1, r, rfl, hstatus, fun _ => hother, ht.2⟩
            · exact fun e he => .inr (.inr (.inr ⟨he.1, he.2, trivial, fun _ => hother⟩))
            · exact fun hnone => .inr (.inr (.inl
                ⟨rfl, trivial, howner.mpr ⟨hstatus, hrole⟩, hnone⟩))
          · rename_i hrole
            have hguard : db.activeOwner o a = true → db.ownedWithout o a :=
              fun ha => absurd (howner.mp ha).2 hrole
            refine Txn.Prog.solo_mono hchange ?_ ?_
            · exact fun _ t ht => ⟨trivial, ht.1, r, rfl, hstatus, hguard, ht.2⟩
            · exact fun e he => .inr (.inr (.inr ⟨he.1, he.2, trivial, hguard⟩))

/-- **`reactivate_member`, alone.** It asks for a suspended membership and for no capability of the
performer beyond an active one. -/
theorem solo_reactivate_member :
    (reactivate_member tx p o a).Solo Write.apply db₀
      (fun _ t => db.active o p = true ∧ ∃ r, db.member o a = some r ∧ r.status = .suspended
        ∧ t = db.member_changed p o a { r with status := .active } (.member_reactivated a))
      (fun e => e = .notFound ∧ (db.active o p = true → db.member o a = none)
        ∨ e = .actorDeparted ∧ db.active o p = true ∧ db.departed a = true
        ∨ e = .notSuspended ∧ db.active o p = true
          ∧ ∀ r, db.member o a = some r → r.status ≠ .suspended) db := by
  rw [reactivate_member, Txn.Prog.solo_bind, solo_lift, solo_lock_actor, Txn.Prog.solo_bind,
    solo_lift, solo_lock_organization rfl href.organization_of_active]
  cases hp : db.active o p with
  | false => simp
  | true =>
      simp only [Bool.not_true, Bool.false_eq_true, if_false]
      rw [Txn.Prog.solo_bind, solo_lift, solo_member rfl hp]
      cases hr : db.member o a with
      | none => simp
      | some r =>
          simp only [Option.map_some]
          split
          · rename_i hdeparted
            -- What `lock_actor` reports of an actor it has seen is so.
            have hseen : db.departed a = true := by
              rw [departed_seen] at hdeparted
              split at hdeparted
              · exact Option.some.inj hdeparted
              · cases hdeparted
            exact .inr (.inl ⟨rfl, trivial, hseen⟩)
          · by_cases hstatus : r.status = .suspended
            case neg => simp [hstatus]
            simp only [hstatus, ne_eq, not_true_eq_false, if_false]
            rw [solo_update_member_and_write rfl href hp hr]
            have hdone : (True ∧ ∃ x, some r = some x ∧ x.status = .suspended
                ∧ db.member_changed p o a { r with status := .active } (.member_reactivated a)
                  = db.member_changed p o a { x with status := .active } (.member_reactivated a)) :=
              ⟨trivial, r, rfl, hstatus, rfl⟩
            exact ⟨fun _ _ => hdone, fun _ hne => absurd rfl hne, fun _ => hdone⟩

end Operations

end Fukulow
