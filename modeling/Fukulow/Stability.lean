/-
What the locks a call holds keep true while other calls commit.

Each fact is the same argument: a commit that changes the row in question is covered by
locks of its own, and one of them excludes a lock held here. A row lock from `FOR SHARE`
upwards freezes its row, an organization lock `FOR UPDATE` freezes every row of the
organization, an actor lock `FOR UPDATE` keeps new rows about the actor out, and rows of
the tables without deletion stay.
-/
import Fukulow.Guarantee

set_option autoImplicit false

namespace Fukulow

open Txn (LockMode)

variable {allowed : Call → Bool} {guarded : Bool} {V : World → Prop}
variable {L L' : Held} {w w' : World}

/-! ## One commit -/

/-- The row a call leaves behind is the row it found, or a covered write. So whatever is said of
the next state is said by asking which locks the writer held. -/
theorem covered_or_same {q : Request} {o : Outcome}
    (h : (rules allowed guarded V).guar q L' o w) (k : Key) :
    ((engine allowed).finish q L' o w).store.rows.get k = w.store.rows.get k
      ∨ Covered q.call L' w.store k (((engine allowed).finish q L' o w).store.rows.get k) := by
  cases o with
  | committed ws reply =>
      obtain hsame | hput := view_get ws w.store k
      · exact .inl hsame
      · exact .inr (h.1 k _ hput)
  | failed reply => exact .inl rfl
  | aborted => exact .inl rfl

/-- A lock held here excludes the locks that conflict with it: the engine grants no two of them at
once. Each fact below ends in this contradiction. -/
theorem excluded {q : Request} {o : Outcome} {k : Key} {m m' : LockMode}
    (hc : (engine allowed).Compatible L ((rules allowed guarded V).shown q L' o)) (h : L.row k m)
    (h' : L'.row k m') (hconf : m.conflicts m' = true) : False := by
  have hfree : m.conflicts m' = false :=
    hc _ m m' h (Txn.Rules.subset_shown _ q L' o h')
  simp [hfree] at hconf

/-! ## Rows -/

/-- A share lock, or a stronger one, freezes its row: whoever writes it holds a lock that
conflicts. By induction over the endings in between. -/
theorem frozen_row {k : Key} {m : LockMode} (hrow : L.row k m)
    (hm : LockMode.share.strength ≤ m.strength) (h : (rules allowed guarded V).Later L w w') :
    w'.store.rows.get k = w.store.rows.get k := by
  refine Txn.Rules.Later.frozen (fun v => v.store.rows.get k) ?_ h
  intro q L' o v hg hc _
  obtain hsame | hcov := covered_or_same hg k
  · exact hsame
  · obtain ⟨m', hwrites, hrow'⟩ := hcov.row
    refine (excluded hc hrow hrow' ?_).elim
    rw [LockMode.conflicts_comm]
    exact hwrites.conflicts hm

/-- An organization lock `FOR UPDATE` freezes the rows of the organization. Any write of one is
covered by a lock on the organization, be it only that of a foreign key. -/
theorem frozen_tenant {o : OrganizationId} (hrow : L.row (.organization o) .update)
    (h : (rules allowed guarded V).Later L w w') {k : Key} {x : Row k} (hx : tenant k x = some o) :
    w'.store.rows.get k = some x ↔ w.store.rows.get k = some x := by
  refine Iff.of_eq (Txn.Rules.Later.frozen (fun v => v.store.rows.get k = some x) ?_ h)
  intro q L' out v hg hc _
  obtain hsame | hcov := covered_or_same hg k
  · exact congrArg (· = some x) hsame
  · refine propext ⟨fun hnew => ?_, fun hold => ?_⟩
    · obtain ⟨m, hm⟩ := hcov.organization x o (.inr hnew) hx
      exact (excluded hc hrow hm (LockMode.update_conflicts m)).elim
    · obtain ⟨m, hm⟩ := hcov.organization x o (.inl hold) hx
      exact (excluded hc hrow hm (LockMode.update_conflicts m)).elim

/-- In particular the memberships, -/
theorem frozen_member {o : OrganizationId} (hrow : L.row (.organization o) .update)
    (h : (rules allowed guarded V).Later L w w') (a : ActorId) :
    w'.store.member o a = w.store.member o a :=
  Option.ext fun x => frozen_tenant (k := .member o a) (x := x) hrow h rfl

/-- and with them who is active, -/
theorem frozen_active {o : OrganizationId} (hrow : L.row (.organization o) .update)
    (h : (rules allowed guarded V).Later L w w') (a : ActorId) :
    w'.store.active o a = w.store.active o a := by
  simp only [Database.active, frozen_member hrow h a]

/-- and who is an active owner: a check of the owners holds from the lock to the commit. -/
theorem frozen_activeOwner {o : OrganizationId} (hrow : L.row (.organization o) .update)
    (h : (rules allowed guarded V).Later L w w') (a : ActorId) :
    w'.store.activeOwner o a = w.store.activeOwner o a := by
  simp only [Database.activeOwner, frozen_member hrow h a]

/-- An actor lock `FOR UPDATE` keeps new rows about the actor out: a new row references its actor,
and the foreign key asks for a lock. Rows that were there may still change, so only whose they are
is kept. -/
theorem frozen_person {a : ActorId} (hrow : L.row (.actor a) .update)
    (h : (rules allowed guarded V).Later L w w') {k : Key} {x : Row k}
    (hx : w'.store.rows.get k = some x) (hp : person k x = some a) :
    ∃ y, w.store.rows.get k = some y ∧ person k y = some a ∧ tenant k y = tenant k x := by
  refine Txn.Rules.Later.preserves
    (P := fun v => ∀ x, v.store.rows.get k = some x → person k x = some a →
      ∃ y, w.store.rows.get k = some y ∧ person k y = some a ∧ tenant k y = tenant k x)
    ?_ h ?_ x hx hp
  · intro q L' o v ih hg hc _ x hx hp
    obtain hsame | hcov := covered_or_same hg k
    · exact ih x (hsame ▸ hx) hp
    · cases hold : v.store.rows.get k with
      | none =>
          obtain ⟨m, hm⟩ := hcov.actor hold x a hx hp
          exact (excluded hc hrow hm (LockMode.update_conflicts m)).elim
      | some y =>
          obtain ⟨ht, hpy⟩ := hcov.same y x hold hx
          obtain ⟨z, hz, hpz, htz⟩ := ih y hold (hpy ▸ hp)
          exact ⟨z, hz, hpz, htz.trans ht.symm⟩
  · exact fun x hx hp => ⟨x, hx, hp, rfl⟩

/-- A row stays, and stays whose it is, when its table has no deletion or a lock on it is held: a
deletion takes the strongest lock. It may be updated, which changes neither. -/
theorem persists {k : Key} (hdel : k.deletable = false ∨ L.any k) {x : Row k}
    (hx : w.store.rows.get k = some x) (h : (rules allowed guarded V).Later L w w') :
    ∃ y, w'.store.rows.get k = some y ∧ tenant k y = tenant k x ∧ person k y = person k x := by
  refine Txn.Rules.Later.preserves
    (P := fun v => ∃ y, v.store.rows.get k = some y ∧ tenant k y = tenant k x
      ∧ person k y = person k x) ?_ h ⟨x, hx, rfl, rfl⟩
  intro q L' o v ih hg hc _
  obtain ⟨y, hy, hty, hpy⟩ := ih
  obtain hsame | hcov := covered_or_same hg k
  · exact ⟨y, hsame.trans hy, hty, hpy⟩
  · cases hnew : ((engine allowed).finish q L' o v).store.rows.get k with
    | none =>
        obtain ⟨hk, hrow'⟩ := hcov.kept hnew
        obtain hk' | ⟨m, hrow⟩ := hdel
        · rw [hk'] at hk
          cases hk
        · exact (excluded hc hrow hrow' (LockMode.conflicts_update m)).elim
    | some z =>
        obtain ⟨htz, hpz⟩ := hcov.same y z hy hnew
        exact ⟨z, rfl, htz.trans hty, hpz.trans hpy⟩

/-- Apart from team memberships, rows about an actor locked `FOR UPDATE` are not deleted. Listings,
users and sessions only go with a departure, which locks the actor first; a team membership can be
removed by an administrator. -/
theorem kept_person {a : ActorId} (hrow : L.row (.actor a) .update) {k : Key}
    (hk : ∀ t b, k ≠ .teamMember t b) {x : Row k} (hx : w.store.rows.get k = some x)
    (hp : person k x = some a) (h : (rules allowed guarded V).Later L w w') :
    ∃ y, w'.store.rows.get k = some y ∧ tenant k y = tenant k x ∧ person k y = person k x := by
  refine Txn.Rules.Later.preserves
    (P := fun v => ∃ y, v.store.rows.get k = some y ∧ tenant k y = tenant k x
      ∧ person k y = person k x) ?_ h ⟨x, hx, rfl, rfl⟩
  intro q L' o v ih hg hc _
  obtain ⟨y, hy, hty, hpy⟩ := ih
  obtain hsame | hcov := covered_or_same hg k
  · exact ⟨y, hsame.trans hy, hty, hpy⟩
  · cases hnew : ((engine allowed).finish q L' o v).store.rows.get k with
    | none =>
        have hrow' : Held.row L' (.actor a) .update := hcov.departure hnew hk y a hy (hpy.trans hp)
        exact (excluded hc hrow hrow' (LockMode.update_conflicts _)).elim
    | some z =>
        obtain ⟨htz, hpz⟩ := hcov.same y z hy hnew
        exact ⟨z, rfl, htz.trans hty, hpz.trans hpy⟩

/-- A row of a table with neither updates nor deletions stays as it is, with no lock at all. -/
theorem fixed_row {k : Key} (hdel : k.deletable = false) (hupd : k.updatable = false) {x : Row k}
    (hx : w.store.rows.get k = some x) (h : (rules allowed guarded V).Later L w w') :
    w'.store.rows.get k = some x := by
  refine Txn.Rules.Later.preserves (P := fun v => v.store.rows.get k = some x) ?_ h hx
  intro q L' o v hold hg _ _
  obtain hsame | hcov := covered_or_same hg k
  · exact hsame.trans hold
  · cases hnew : ((engine allowed).finish q L' o v).store.rows.get k with
    | none =>
        have hcontra := (hcov.kept hnew).1
        rw [hdel] at hcontra
        cases hcontra
    | some y => simp [hcov.fixed y hnew hupd] at hold

/-- In the guarded runs nobody becomes an active member while leaving. This is where the guard is
used: `reactivate_member` without its lock would be the one exception. -/
theorem not_activated {a : ActorId} (hrow : L.row (.actor a) .update)
    (h : (rules allowed true V).Later L w w') {o : OrganizationId}
    (hact : w'.store.active o a = true) : w.store.active o a = true := by
  refine Txn.Rules.Later.preserves
    (P := fun v => v.store.active o a = true → w.store.active o a = true) ?_ h id hact
  intro q L' out v ih hg hc _ hact
  obtain hsame | hcov := covered_or_same hg (.member o a)
  · exact ih (by simpa only [Database.active, Database.member, hsame] using hact)
  · cases out with
    | failed reply => exact ih hact
    | aborted => exact ih hact
    | committed ws reply =>
        have hput : (view [.put (.member o a) ((view ws v.store).member o a)] v.store).active o a
            = (view ws v.store).active o a :=
          congrArg (Option.any _) (Txn.Store.get_put_self _ _ _)
        obtain hold | ⟨m, hm⟩ | ⟨p, hq⟩ := hcov.activation o a rfl (hput.trans hact)
        · exact ih hold
        · exact (excluded hc hrow hm (LockMode.update_conflicts m)).elim
        · -- A reactivation is presumed to hold the share lock that this lock excludes.
          have hshown : (Resource.row (.actor a), LockMode.share) ∈
              (rules allowed true V).shown q L' (.committed ws reply) := by
            simp [Txn.Rules.shown, rules, presumedLocks, hq]
          have hfree : LockMode.update.conflicts .share = false := hc _ _ _ hrow hshown
          cases hfree

end Fukulow
