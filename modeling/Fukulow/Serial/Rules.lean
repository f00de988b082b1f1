/-
Rules for the forms of SQL statement in a call that runs alone.

The rules of `StatementRules` say what is left of a statement's snapshot when its locks are
granted; alone, nothing moves in between. So each rule here is an equivalence: the
statement ends as its plain reading says, on the state it saw. A statement that fails rolls
the call back, and what is said about its error is all that is left to show.
-/
import Fukulow.Guaranteed.Membership
import Fukulow.References
import Fukulow.Txn.Solo

set_option autoImplicit false

namespace Fukulow

open Txn (LockMode)

variable {α ε : Type} {db₀ db : Database}

/-! ## One write -/

theorem put_get_of_ne {k k' : Key} {r : Option (Row k)} (h : k' ≠ k) :
    ((Write.put k r).apply db).rows.get k' = db.rows.get k' :=
  Txn.Store.get_put_of_ne h

theorem put_active_self {o : OrganizationId} {a : ActorId} {r : MemberRow} :
    ((Write.put (.member o a) (some r)).apply db).active o a = decide (r.status = .active) := by
  simp [Database.active, Database.member]

theorem put_active_of_ne {k : Key} {r : Option (Row k)} {o : OrganizationId} {a : ActorId}
    (h : Key.member o a ≠ k) : ((Write.put k r).apply db).active o a = db.active o a := by
  rw [Database.active, Database.member, put_get_of_ne h]
  rfl

/-! ## Reads and locks -/

theorem solo_lift [FromSql ε] {Q : α → Database → Prop} {F : ε → Prop} {p : Sql SqlError α} :
    (liftM p : Sql ε α).Solo Write.apply db₀ Q F db ↔
      p.Solo Write.apply db₀ Q (fun e => F (FromSql.database e)) db :=
  Txn.Prog.solo_mapError

theorem solo_select {Q : α → Database → Prop} {F : SqlError → Prop} {q : Database → α} :
    (select q).Solo Write.apply db₀ Q F db ↔ Q (q db) db := Iff.rfl

theorem solo_snapshot {Q : Database → Database → Prop} {F : ε → Prop} :
    (snapshot : Sql ε Database).Solo Write.apply db₀ Q F db ↔ Q db db := Iff.rfl

theorem solo_lockRow {Q : Database → Database → Prop} {F : ε → Prop} {k : Key} {m : LockMode} :
    (lockRow k m : Sql ε Database).Solo Write.apply db₀ Q F db ↔ Q db db := Iff.rfl

theorem solo_emit {Q : Unit → Database → Prop} {F : ε → Prop} {w : Write} :
    (emit w : Sql ε Unit).Solo Write.apply db₀ Q F db ↔ Q () (w.apply db) := Iff.rfl

theorem solo_ensure {Q : Unit → Database → Prop} {F : ε → Prop} {b : Bool} {e : ε} :
    (ensure b e).Solo Write.apply db₀ Q F db ↔ (b = true → Q () db) ∧ (b = false → F e) := by
  cases b with
  | true => exact ⟨fun h => ⟨fun _ => h, (by rintro ⟨⟩)⟩, fun h => h.1 rfl⟩
  | false => exact ⟨fun h => ⟨(by rintro ⟨⟩), fun _ => h⟩, fun h => h.2 rfl⟩

section Statements

variable {F : SqlError → Prop}

theorem solo_select_locking {k : Key} {Q : Option (Row k) → Database → Prop} {m : LockMode}
    {visible : Database → Row k → Bool} {matches_ : Row k → Bool} :
    (select_locking k m visible matches_).Solo Write.apply db₀ Q F db ↔
      Q ((db.rows.get k).filter fun r => visible db r && matches_ r) db := by
  rw [select_locking, Txn.Prog.solo_bind, solo_snapshot]
  cases hr : db.rows.get k with
  | none => exact Iff.rfl
  | some r =>
      by_cases hv : (visible db r && matches_ r) = true
      · simp only [hv, if_true, Option.filter_some]
        change Q ((db.rows.get k).filter matches_) db ↔ _
        simp only [hr, Option.filter_some, (Bool.and_eq_true_iff.mp hv).2, if_true]
      · simp only [hv, Option.filter_some]
        exact Iff.rfl

theorem solo_lock_rows {τ β : Type} {Q : List β → Database → Prop} {key : τ → Key} {m : LockMode}
    {read : Database → τ → β} {xs : List τ} :
    (lock_rows key m read xs).Solo Write.apply db₀ Q F db ↔ Q (xs.map (read db)) db := by
  induction xs generalizing Q with
  | nil => exact Iff.rfl
  | cons x xs ih =>
      change (lock_rows key m read xs >>= fun rest => pure (read db x :: rest)).Solo _ _ _ _ _ ↔ _
      rw [Txn.Prog.solo_bind, ih]
      exact Iff.rfl

/-! ## Updates and deletes -/

theorem solo_update_row {k : Key} {Q : Option (Row k) → Database → Prop}
    {visible : Database → Row k → Bool} {matches_ : Row k → Bool}
    {set : Database → Row k → Except SqlError (Row k)} :
    (update_row db k visible matches_ set).Solo Write.apply db₀ Q F db ↔
      match (db.rows.get k).filter fun r => visible db r && matches_ r with
      | none => Q none db
      | some r => match set db r with
        | .error e => F e
        | .ok r' => Q (some r') ((Write.put k (some r')).apply db) := by
  rw [update_row]
  cases hr : db.rows.get k with
  | none => exact Iff.rfl
  | some r =>
      by_cases hv : (visible db r && matches_ r) = true
      · simp only [hv, if_true, Option.filter_some]
        -- Alone, the newest version is the one that the snapshot shows.
        change (match db.rows.get k with
          | none => (pure none : Sql SqlError (Option (Row k)))
          | some r => if matches_ r then
              match set db r with
              | .error e => .throw e
              | .ok r' => emit (.put k (some r')) >>= fun _ => pure (some r')
            else pure none).Solo Write.apply db₀ Q F db ↔ _
        simp only [hr, (Bool.and_eq_true_iff.mp hv).2, if_true]
        cases set db r with
        | error e => exact Iff.rfl
        | ok r' => exact Iff.rfl
      · simp only [hv, Option.filter_some]
        exact Iff.rfl

theorem solo_update {k : Key} {Q : Option (Row k) → Database → Prop}
    {visible : Database → Row k → Bool} {matches_ : Row k → Bool}
    {set : Database → Row k → Except SqlError (Row k)} :
    (update k visible matches_ set).Solo Write.apply db₀ Q F db ↔
      match (db.rows.get k).filter fun r => visible db r && matches_ r with
      | none => Q none db
      | some r => match set db r with
        | .error e => F e
        | .ok r' => Q (some r') ((Write.put k (some r')).apply db) :=
  solo_update_row

/-- An update that finds its row and passes its checks. This is the case that the operations are
in, once their locks have told them what is there. -/
theorem solo_update_ok {k : Key} {Q : Option (Row k) → Database → Prop}
    {visible : Database → Row k → Bool} {matches_ : Row k → Bool}
    {set : Database → Row k → Except SqlError (Row k)} {r u : Row k}
    (hr : ((db.rows.get k).filter fun r => visible db r && matches_ r) = some r)
    (hset : set db r = .ok u) (hQ : Q (some u) ((Write.put k (some u)).apply db)) :
    (update k visible matches_ set).Solo Write.apply db₀ Q F db := by
  rw [solo_update, hr]
  simp only [hset]
  exact hQ

/-- A delete of rows that still match when their turn comes deletes them all. The test is about
each row alone, so the deletion of the others does not change it. -/
theorem solo_delete_rows {τ : Type} {Q : List τ → Database → Prop} {key : τ → Key}
    {still : Database → τ → Bool} {xs : List τ}
    (hstill : ∀ db db' x, db.rows.get (key x) = db'.rows.get (key x) → still db x = still db' x)
    (hnodup : (xs.map key).Nodup) (hall : ∀ x ∈ xs, still db x = true) :
    (delete_rows key still xs).Solo Write.apply db₀ Q F db ↔
      Q xs (view (deletions key xs) db) := by
  induction xs generalizing Q db with
  | nil => exact Iff.rfl
  | cons x xs ih =>
      rw [List.map_cons, List.nodup_cons] at hnodup
      rw [List.forall_mem_cons] at hall
      change (if still db x then emit (.put (key x) none) >>= fun _ =>
        delete_rows key still xs >>= fun rest => pure (x :: rest)
        else delete_rows key still xs).Solo Write.apply db₀ Q F db ↔ _
      rw [if_pos hall.1]
      change (delete_rows key still xs >>= fun rest => pure (x :: rest)).Solo Write.apply db₀ Q F
        ((Write.put (key x) none).apply db) ↔ _
      rw [Txn.Prog.solo_bind, ih hnodup.2]
      · exact Iff.rfl
      · intro y hy
        have hne : key y ≠ key x := fun heq => hnodup.1 (heq ▸ List.mem_map_of_mem hy)
        rw [hstill _ db y (Txn.Store.get_put_of_ne hne)]
        exact hall.2 y hy

theorem solo_delete_where {τ : Type} {Q : List τ → Database → Prop} {key : τ → Key}
    {still : Database → τ → Bool} {found : Database → List τ}
    (hstill : ∀ db db' x, db.rows.get (key x) = db'.rows.get (key x) → still db x = still db' x)
    (hnodup : ((found db).map key).Nodup) (hall : ∀ x ∈ found db, still db x = true) :
    (delete_where found key still).Solo Write.apply db₀ Q F db ↔
      Q (found db) (view (deletions key (found db)) db) :=
  solo_delete_rows hstill hnodup hall

/-! ## Inserts -/

/-- Is what `ref` names in `db`? -/
def Reference.holds (ref : Reference) (db : Database) : Bool :=
  (db.rows.get ref.key).any ref.accepts

theorem Reference.holds_of_some {k : Key} {accepts : Row k → Bool} {r : Row k}
    (hr : db.rows.get k = some r) (h : accepts r = true) :
    Reference.holds ⟨k, accepts⟩ db = true := by
  simp [Reference.holds, hr, h]

/-- A row that is there can be referenced, also after the write of another row: foreign keys are
checked after the row itself is in. -/
theorem Reference.holds_of_put {k k' : Key} {r : Option (Row k')} (h : db.rows.get k ≠ none)
    (hne : k ≠ k') : Reference.holds ⟨k, fun _ => true⟩ ((Write.put k' r).apply db) = true := by
  obtain ⟨x, hx⟩ := Option.ne_none_iff_exists'.mp h
  exact Reference.holds_of_some ((put_get_of_ne hne).trans hx) rfl

theorem solo_check_reference {Q : Unit → Database → Prop} {ref : Reference} :
    (check_reference ref).Solo Write.apply db₀ Q F db ↔
      (ref.holds db = true → Q () db) ∧ (ref.holds db = false → F .foreignKey) := by
  simp only [check_reference, Txn.Prog.solo_bind, solo_snapshot, solo_lockRow, solo_ensure]
  change ((ref.holds db = true → (ref.holds db = true → Q () db) ∧ _) ∧ _) ↔ _
  constructor
  · exact fun h => ⟨fun hb => (h.1 hb).1 hb, h.2⟩
  · exact fun h => ⟨fun hb => ⟨h.1, fun hb' => by cases hb.symm.trans hb'⟩, h.2⟩

theorem solo_references {Q : Unit → Database → Prop} {refs : List Reference}
    (h : ∀ ref ∈ refs, ref.holds db = true) :
    (refs.forM check_reference).Solo Write.apply db₀ Q F db ↔ Q () db := by
  induction refs generalizing Q with
  | nil => exact Iff.rfl
  | cons ref refs ih =>
      rw [List.forall_mem_cons] at h
      change (check_reference ref >>= fun _ => refs.forM check_reference).Solo _ _ _ _ _ ↔ _
      rw [Txn.Prog.solo_bind, solo_check_reference, ih h.2]
      exact ⟨fun hq => hq.1 h.1, fun hq => ⟨fun _ => hq, fun hb => by rw [h.1] at hb; cases hb⟩⟩

/-- The first entry that is taken is the one the error names; the order is that of the indexes. -/
theorem solo_enter_indexes {Q : Unit → Database → Prop} {indexes : List UniqueIndex} :
    (indexes.forM enter_index).Solo Write.apply db₀ Q F db ↔
      match indexes.find? fun i => i.taken db with
      | none => Q () db
      | some i => F (.unique i.constraint) := by
  induction indexes generalizing Q with
  | nil => exact Iff.rfl
  | cons i indexes ih =>
      change (ensure (!i.taken db) (.unique i.constraint) >>= fun _ =>
        indexes.forM enter_index).Solo Write.apply db₀ Q F db ↔ _
      rw [Txn.Prog.solo_bind, solo_ensure, ih, List.find?_cons]
      cases i.taken db with
      | true => exact ⟨fun h => h.2 rfl, fun h => ⟨(by rintro ⟨⟩), fun _ => h⟩⟩
      | false => exact ⟨fun h => h.1 rfl, fun h => ⟨fun _ => h, (by rintro ⟨⟩)⟩⟩

section Inserts

variable {k : Key} {r : Row k} {admits : Database → Except SqlError Unit}
variable {indexes : List UniqueIndex} {references : List Reference}

/-- An insert whose references are there fails at its policies or at an index entry, finds its
primary key taken, or inserts. The order in which these are looked at decides which error a caller
sees. -/
theorem solo_insert_row {Q : Bool → Database → Prop}
    (hrefs : ∀ ref ∈ references, ref.holds ((Write.put k (some r)).apply db) = true) :
    (insert_row db k r admits indexes references).Solo Write.apply db₀ Q F db ↔
      match admits db with
      | .error e => F e
      | .ok () => if (db.rows.get k).isSome then Q false db
        else match indexes.find? fun i => i.taken db with
          | none => Q true ((Write.put k (some r)).apply db)
          | some i => F (.unique i.constraint) := by
  rw [insert_row]
  cases admits db with
  | error e => exact Iff.rfl
  | ok _ =>
      change (if (db.rows.get k).isSome then (pure false : Sql SqlError Bool)
        else indexes.forM enter_index >>= fun _ => emit (.put k (some r)) >>= fun _ =>
          references.forM check_reference >>= fun _ => pure true).Solo Write.apply db₀ Q F db ↔ _
      by_cases hk : (db.rows.get k).isSome = true
      · rw [if_pos hk]
        simp only [hk, if_true]
        exact Iff.rfl
      · rw [if_neg hk]
        simp only [hk, Bool.false_eq_true, if_false]
        rw [Txn.Prog.solo_bind, solo_enter_indexes]
        split
        · change (references.forM check_reference >>= fun _ => pure true).Solo Write.apply db₀ Q F
            ((Write.put k (some r)).apply db) ↔ _
          rw [Txn.Prog.solo_bind, solo_references hrefs]
          exact Iff.rfl
        · exact Iff.rfl

theorem solo_insert_or_nothing {Q : Bool → Database → Prop}
    (hrefs : ∀ ref ∈ references, ref.holds ((Write.put k (some r)).apply db) = true) :
    (insert_or_nothing k r admits indexes references).Solo Write.apply db₀ Q F db ↔
      match admits db with
      | .error e => F e
      | .ok () => if (db.rows.get k).isSome then Q false db
        else match indexes.find? fun i => i.taken db with
          | none => Q true ((Write.put k (some r)).apply db)
          | some i => F (.unique i.constraint) :=
  solo_insert_row hrefs

/-- An insert that passes its checks, under a new primary key and new index entries. -/
theorem solo_insert_ok {Q : Bool → Database → Prop} (hadmits : admits db = .ok ())
    (hnew : db.rows.get k = none) (hfree : ∀ i ∈ indexes, i.taken db = false)
    (hrefs : ∀ ref ∈ references, ref.holds ((Write.put k (some r)).apply db) = true)
    (hQ : Q true ((Write.put k (some r)).apply db)) :
    (insert_or_nothing k r admits indexes references).Solo Write.apply db₀ Q F db := by
  have hfind : (indexes.find? fun i => i.taken db) = none := by
    rw [List.find?_eq_none]
    intro i hi
    rw [hfree i hi, Bool.not_eq_true]
  rw [solo_insert_or_nothing hrefs]
  simp only [hadmits, hnew, hfind, Option.isSome_none, Bool.false_eq_true, if_false]
  exact hQ

/-- An insert under a new primary key: what is left are its policies and its index entries. -/
theorem solo_insert {Q : Unit → Database → Prop} {pkey : String}
    (hrefs : ∀ ref ∈ references, ref.holds ((Write.put k (some r)).apply db) = true)
    (hnew : db.rows.get k = none) :
    (insert k r pkey admits indexes references).Solo Write.apply db₀ Q F db ↔
      match admits db with
      | .error e => F e
      | .ok () => match indexes.find? fun i => i.taken db with
        | none => Q () ((Write.put k (some r)).apply db)
        | some i => F (.unique i.constraint) := by
  rw [insert, Txn.Prog.solo_bind, solo_insert_or_nothing hrefs]
  simp only [hnew, Option.isSome_none, Bool.false_eq_true, if_false]
  exact Iff.rfl

theorem solo_insert_from {Q : Option Bool → Database → Prop} {source : Database → Bool}
    (hsource : source db = true)
    (hrefs : ∀ ref ∈ references, ref.holds ((Write.put k (some r)).apply db) = true) :
    (insert_from source k r admits indexes references).Solo Write.apply db₀ Q F db ↔
      match admits db with
      | .error e => F e
      | .ok () => if (db.rows.get k).isSome then Q (some false) db
        else match indexes.find? fun i => i.taken db with
          | none => Q (some true) ((Write.put k (some r)).apply db)
          | some i => F (.unique i.constraint) := by
  change (if source db then
    insert_row db k r admits indexes references >>= fun inserted => pure (some inserted)
    else pure none).Solo Write.apply db₀ Q F db ↔ _
  rw [if_pos hsource, Txn.Prog.solo_bind, solo_insert_row hrefs]
  exact Iff.rfl

end Inserts

/-- An admitted record of an organization and a performer that are there. Only its policy decides,
and that looks at the state the call has made so far. -/
theorem solo_event_write {Q : Unit → Database → Prop} {e : Event} {s : Settings}
    {o : OrganizationId} {p : ActorId} (horg : db.organization o ≠ none) (hp : db.actor p ≠ none) :
    (e.write s o p).Solo Write.apply db₀ Q F db ↔
      (audit_events_insert s db ⟨o, p, e⟩ = true → Q () ((Write.log ⟨o, p, e⟩).apply db))
        ∧ (audit_events_insert s db ⟨o, p, e⟩ = false → F .insufficientPrivilege) := by
  have hrefs : ∀ k : Key, db.rows.get k ≠ none →
      Reference.holds ⟨k, fun _ => true⟩ ((Write.log ⟨o, p, e⟩).apply db) = true := by
    intro k hk
    obtain ⟨r, hr⟩ := Option.ne_none_iff_exists'.mp hk
    simp [Reference.holds, hr]
  simp only [Event.write, Txn.Prog.solo_bind, solo_snapshot, solo_ensure, solo_emit,
    solo_check_reference, hrefs _ horg, hrefs _ hp]
  simp

/-! ## The parts of the operations -/

variable {s : Settings} {p a : ActorId} {o : OrganizationId}

/-- The organization's lock tells whether the performer is active there: nobody else sees the row.
-/
theorem solo_lock_organization {Q : Bool → Database → Prop} {lock : OrganizationLock}
    (hs : s.actor_id = some p) (horg : db.active o p = true → db.organization o ≠ none) :
    (lock_organization s o lock).Solo Write.apply db₀ Q F db ↔ Q (db.active o p) db := by
  rw [lock_organization, Txn.Prog.solo_bind, solo_select_locking, Txn.Prog.solo_pure]
  have hpolicy : (organizations_select s db o && organizations_update s db o && true)
      = db.active o p := by
    simp [organizations_select, organizations_update, active_organizations_actor hs]
  rw [hpolicy]
  cases hp : db.active o p with
  | false => simp
  | true =>
      obtain ⟨r, hr⟩ := Option.ne_none_iff_exists'.mp (horg hp)
      simp [show db.rows.get (.organization o) = some r from hr]

/-- What `lock_actor` tells of its target: nothing where row security hides it. -/
def departed_seen (s : Settings) (db : Database) (a : ActorId) : Option Bool :=
  if (db.actor a).isSome && actors_select s db a && actors_update s db a then some (db.departed a)
  else none

theorem solo_lock_actor {Q : Option Bool → Database → Prop} :
    (lock_actor s a p).Solo Write.apply db₀ Q F db ↔ Q (departed_seen s db a) db := by
  simp only [lock_actor, Txn.Prog.solo_bind, solo_snapshot, solo_lock_rows, Txn.Prog.solo_pure]
  refine iff_of_eq (congrArg (Q · db) ?_)
  -- The target is in the list exactly if it is seen.
  generalize hids : ([a, p].dedup.insertionSort (· ≤ ·)).filter
    (fun b => (db.actor b).isSome && actors_select s db b && actors_update s db b) = ids
  have hmem : a ∈ ids ↔
      ((db.actor a).isSome && actors_select s db a && actors_update s db a) = true := by
    rw [← hids, List.mem_filter, List.mem_insertionSort, List.mem_dedup]
    exact and_iff_right List.mem_cons_self
  have hfind : (ids.map fun b => (b, db.departed b)).find? (fun row => row.1 = a)
      = if a ∈ ids then some (a, db.departed a) else none := by
    rw [List.find?_map]
    by_cases ha : a ∈ ids
    · have hfound : (ids.find? fun b => b = a).isSome = true :=
        List.find?_isSome.mpr ⟨a, ha, by simp⟩
      obtain ⟨b, hb⟩ := Option.isSome_iff_exists.mp hfound
      have hba : b = a := by simpa using List.find?_some hb
      rw [if_pos ha]
      change (ids.find? fun b => b = a).map _ = _
      rw [hb, hba]
      rfl
    · rw [if_neg ha]
      change (ids.find? fun b => b = a).map _ = _
      rw [List.find?_eq_none.mpr]
      · rfl
      · intro b hb hba
        have heq : b = a := by simpa using hba
        exact ha (heq ▸ hb)
  rw [hfind, departed_seen]
  by_cases ha : a ∈ ids
  · rw [if_pos ha, if_pos (hmem.mp ha)]
    rfl
  · rw [if_neg ha, if_neg fun h => ha (hmem.mpr h)]
    rfl

/-- A member's view of the memberships of its organization: all of them, of whatever status. -/
theorem solo_member {Q : Option (OrganizationRole × MemberStatus) → Database → Prop}
    (hs : s.actor_id = some p) (hp : db.active o p = true) :
    (member s o a).Solo Write.apply db₀ Q F db ↔
      Q ((db.member o a).map fun r => (r.role, r.status)) db := by
  have hseen : organization_members_select s db o a = true := by
    rw [organization_members_select, active_organizations_actor hs, hp, Bool.true_or]
  rw [member, solo_select]
  simp only [hseen]
  cases db.member o a with
  | none => exact Iff.rfl
  | some r => exact Iff.rfl

theorem solo_active_owners {Q : List ActorId → Database → Prop} :
    (active_owners s o).Solo Write.apply db₀ Q F db ↔ Q (owners_of s o db) db := Iff.rfl

/-- To a member, the owner check says whether somebody else owns the organization. The check does
not ask whether the one who leaves or changes is an owner at all. -/
theorem check_owners_iff {tx : Transaction} {change : OwnerChange} (hp : db.active o p = true) :
    check_owner_change (owners_of (begin tx (.actor p)) o db) change = true ↔
      db.ownedWithout o change.actor := by
  constructor
  · refine ownedWithout_of_check fun b hb => ?_
    obtain ⟨k, r, hr, hread⟩ := Txn.Store.mem_select.mp hb
    cases k with
    | member o' a' =>
        simp only [Option.ite_none_right_eq_some, Option.some.injEq] at hread
        obtain ⟨⟨rfl, hrole, hstatus, -⟩, rfl⟩ := hread
        exact Database.activeOwner_iff.mpr ⟨r, hr, hstatus, hrole⟩
    | _ => cases hread
  · rintro ⟨b, hne, hb⟩
    exact check_owner_change_iff.mpr ⟨b, mem_owners_of _ hp hb, hne⟩

/-- The owner check, and what follows it: the rest of the operation, or the refusal. -/
theorem solo_check_owners {β : Type} [FromSql ε] {Q : β → Database → Prop} {F : ε → Prop}
    {tx : Transaction} {change : OwnerChange} {e : ε} {k : Unit → Sql ε β}
    (hp : db.active o p = true) :
    ((liftM (active_owners (begin tx (.actor p)) o) : Sql ε (List ActorId)) >>= fun owners =>
        ensure (check_owner_change owners change) e >>= k).Solo Write.apply db₀ Q F db ↔
      (db.ownedWithout o change.actor → (k ()).Solo Write.apply db₀ Q F db)
        ∧ (¬ db.ownedWithout o change.actor → F e) := by
  rw [Txn.Prog.solo_bind, solo_lift, solo_active_owners, Txn.Prog.solo_bind, solo_ensure,
    Bool.eq_false_iff, Ne, check_owners_iff hp]

theorem solo_update_member {Q : Unit → Database → Prop} {f : MemberRow → MemberRow}
    {r : MemberRow} (hr : db.member o a = some r)
    (hseen : organization_members_update_using s db o a = true)
    (hguard : fukulow_guard_inactive_member_role s a r (f r) = true)
    (hcheck : organization_members_update_check s db o a (f r) = true) :
    (update_member s o a f).Solo Write.apply db₀ Q F db ↔
      Q () ((Write.put (.member o a) (some (f r))).apply db) := by
  have hsel : organization_members_select s db o a = true := hseen
  rw [update_member, Txn.Prog.solo_bind, solo_update, show db.rows.get (.member o a) = some r from hr]
  simp only [hsel, hseen, hguard, hcheck, Bool.and_self, Option.filter_some, if_true]
  exact Iff.rfl

/-! ## Audit records -/

/-- A record that is not of a departure is admitted exactly for active members, whatever it
records. -/
theorem audit_insert_iff (tx : Transaction) (db : Database) (p : ActorId) (o : OrganizationId)
    {e : Event} (he : e.leaving = false) :
    audit_events_insert (begin tx (.actor p)) db ⟨o, p, e⟩ = true ↔ db.active o p = true := by
  refine ⟨audit_admits he, fun h => ?_⟩
  simp [audit_events_insert, begin, set_context, fukulow_active_organizations, h]

/-- A record about what is there, by someone who may have become inactive by the very change. -/
theorem solo_write_member [FromSql ε] {tx : Transaction} {Q : Unit → Database → Prop} {F : ε → Prop}
    {e : Event} (he : e.leaving = false) (horg : db.organization o ≠ none)
    (hactor : db.actor p ≠ none) :
    (liftM (e.write (begin tx (.actor p)) o p) : Sql ε Unit).Solo Write.apply db₀ Q F db ↔
      (db.active o p = true → Q () ((Write.log ⟨o, p, e⟩).apply db))
        ∧ (db.active o p = false → F (FromSql.database .insufficientPrivilege)) := by
  have hiff := audit_insert_iff tx db p o he
  rw [solo_lift, solo_event_write horg hactor, hiff, Bool.eq_false_iff, Ne, hiff,
    Bool.not_eq_true]

/-- The record of a member's change of another row than the three it depends on. It is admitted,
since the change has left the performer's own membership alone. -/
theorem solo_record [FromSql ε] {tx : Transaction} {Q : Unit → Database → Prop} {F : ε → Prop}
    {e : Event} {k : Key} {r : Option (Row k)} (he : e.leaving = false) (href : References db)
    (hp : db.active o p = true) (horg : Key.organization o ≠ k) (hactor : Key.actor p ≠ k)
    (hmember : Key.member o p ≠ k)
    (hQ : Q () ((Write.log ⟨o, p, e⟩).apply ((Write.put k r).apply db))) :
    (liftM (e.write (begin tx (.actor p)) o p) : Sql ε Unit).Solo Write.apply db₀ Q F
      ((Write.put k r).apply db) := by
  obtain ⟨x, hx, -⟩ := Database.active_iff.mp hp
  obtain ⟨ho, ha⟩ := href.member o p x hx
  rw [solo_write_member he ((put_get_of_ne horg).trans_ne ho) ((put_get_of_ne hactor).trans_ne ha),
    put_active_of_ne hmember, hp]
  exact ⟨fun _ => hQ, (by rintro ⟨⟩)⟩

end Statements

end Fukulow
