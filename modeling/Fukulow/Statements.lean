/-
The forms of SQL statement the operations use, as transaction programs.

A statement reads once, when it starts: row security, `WHERE` clauses and `WITH CHECK`
see that state (the committed state of that moment with the transaction's own writes).
Then it locks row by row. What a locked row holds is read again when its lock is
granted, since PostgreSQL continues with the newest version of a row that changed while
the statement waited and tests its `WHERE` again; a row that was only locked meanwhile
is the same row. Nothing re-reads the other tables.

An insert waits for whoever holds its primary key or a unique entry, and its foreign
keys are checked after the row is in, in the order the table declares them, each by a
`KEY SHARE` lock on the row it references.
-/
import Fukulow.RowSecurity
import Fukulow.Txn.Program

set_option autoImplicit false

namespace Fukulow

open Txn (LockMode Prog)

/-- What a database error says: the constraint it names, or its kind. -/
inductive SqlError where
  | unique (constraint : String)
  | check (constraint : String)
  | foreignKey
  | insufficientPrivilege
  | outOfRange
  | invalidText
deriving DecidableEq, Repr

/-- `constraint(&error, name)` of `errors.rs`. -/
def SqlError.constraint (e : SqlError) (name : String) : Bool := e = .unique name || e = .check name

/-- `From<sqlx::Error>`: an operation's error type has a `Database` variant. -/
class FromSql (ε : Type) where
  database : SqlError → ε

/-- A part of a transaction, failing with `ε`. -/
abbrev Sql (ε α : Type) : Type := Prog Database Write Resource LockMode ε α

/-- The `?` operator on a statement inside an operation. -/
instance {ε : Type} [FromSql ε] : MonadLift (Sql SqlError) (Sql ε) where
  monadLift p := p.mapError FromSql.database

section

variable {ε : Type}

/-- What a statement sees when it starts. -/
def snapshot : Sql ε Database := .read .pure

/-- Wait for a row lock; then the newest state. -/
def lockRow (k : Key) (m : LockMode) : Sql ε Database := .lock (.row k) m .pure

/-- Wait for an entry of a unique index; then the newest state. -/
def lockEntry (u : UniqueEntry) : Sql ε Database := .lock (.unique u) .update .pure

/-- Record a write. -/
def emit (w : Write) : Sql ε Unit := .write w (.pure ())

/-- Fail with `e` unless `b`. -/
def ensure (b : Bool) (e : ε) : Sql ε Unit := if b then .pure () else .throw e

end

/-- A foreign key of the row being inserted: the row it references, and what the other
referenced columns must be. -/
structure Reference where
  key : Key
  accepts : Row key → Bool

/-- An entry the row being inserted makes in a unique index. -/
structure UniqueIndex where
  entry : UniqueEntry
  constraint : String
  taken : Database → Bool

/-- One foreign-key check: the referenced row must exist, and stay until the end. -/
def check_reference (ref : Reference) : Sql SqlError Unit := do
  let db ← snapshot
  ensure ((db.rows.get ref.key).any ref.accepts) .foreignKey
  let newest ← lockRow ref.key .keyShare
  ensure ((newest.rows.get ref.key).any ref.accepts) .foreignKey

/-- One entry of a unique index. -/
def enter_index (index : UniqueIndex) : Sql SqlError Unit := do
  let newest ← lockEntry index.entry
  ensure (!index.taken newest) (.unique index.constraint)

/-- Insert the row `k` in a statement that saw `db`: was it inserted, or is its primary key
taken? `admits` is row security, triggers and `CHECK` constraints on the new row. -/
def insert_row (db : Database) (k : Key) (r : Row k) (admits : Database → Except SqlError Unit)
    (indexes : List UniqueIndex) (references : List Reference) : Sql SqlError Bool :=
  match admits db with
  | .error e => .throw e
  | .ok () => do
    let newest ← lockRow k .update
    if (newest.rows.get k).isSome then return false
    else do
      indexes.forM enter_index
      emit (.put k (some r))
      references.forM check_reference
      return true

/-- `INSERT ... ON CONFLICT (primary key) DO NOTHING`. -/
def insert_or_nothing (k : Key) (r : Row k) (admits : Database → Except SqlError Unit)
    (indexes : List UniqueIndex) (references : List Reference) : Sql SqlError Bool := do
  let db ← snapshot
  insert_row db k r admits indexes references

/-- `INSERT ... SELECT ... FROM` a source that is there or not: `none` when no row came from
it, else whether the row was inserted. -/
def insert_from (source : Database → Bool) (k : Key) (r : Row k)
    (admits : Database → Except SqlError Unit) (indexes : List UniqueIndex)
    (references : List Reference) : Sql SqlError (Option Bool) := do
  let db ← snapshot
  if source db then do
    let inserted ← insert_row db k r admits indexes references
    return some inserted
  else return none

/-- `INSERT`. -/
def insert (k : Key) (r : Row k) (pkey : String) (admits : Database → Except SqlError Unit)
    (indexes : List UniqueIndex) (references : List Reference) : Sql SqlError Unit := do
  let inserted ← insert_or_nothing k r admits indexes references
  ensure inserted (.unique pkey)

/-- Update the row `k` in a statement that saw `db`: the row's new version, `none` when no
row was updated. `visible` is row security, `matches_` the rest of the `WHERE`; `set` gives
the new version, or the error of a trigger, of `WITH CHECK` or of a `CHECK`. -/
def update_row (db : Database) (k : Key) (visible : Database → Row k → Bool)
    (matches_ : Row k → Bool) (set : Database → Row k → Except SqlError (Row k)) :
    Sql SqlError (Option (Row k)) :=
  match db.rows.get k with
  | none => return none
  | some r =>
    if visible db r && matches_ r then do
      let newest ← lockRow k .noKeyUpdate
      match newest.rows.get k with
      | none => return none
      | some r =>
        if matches_ r then
          match set db r with
          | .error e => .throw e
          | .ok r' => do
            emit (.put k (some r'))
            return some r'
        else return none
    else return none

/-- `UPDATE ... WHERE` on a primary key. -/
def update (k : Key) (visible : Database → Row k → Bool) (matches_ : Row k → Bool)
    (set : Database → Row k → Except SqlError (Row k)) : Sql SqlError (Option (Row k)) := do
  let db ← snapshot
  update_row db k visible matches_ set

/-- `SELECT ... FOR UPDATE` or `FOR SHARE` of the one row `k`. -/
def select_locking (k : Key) (m : LockMode) (visible : Database → Row k → Bool)
    (matches_ : Row k → Bool) : Sql SqlError (Option (Row k)) := do
  let db ← snapshot
  match db.rows.get k with
  | none => return none
  | some r =>
    if visible db r && matches_ r then do
      let newest ← lockRow k m
      return (newest.rows.get k).filter matches_
    else return none

/-- `SELECT ... ORDER BY ... FOR UPDATE` or `FOR SHARE` of several rows: lock them in
order and read each when its lock is granted. -/
def lock_rows {τ β : Type} (key : τ → Key) (m : LockMode) (read : Database → τ → β) :
    List τ → Sql SqlError (List β)
  | [] => return []
  | x :: xs => do
    let newest ← lockRow (key x) m
    let rest ← lock_rows key m read xs
    return read newest x :: rest

/-- Delete the rows a `DELETE` found, in order: lock each, and delete it if the newest
version of the row still is one. -/
def delete_rows {τ : Type} (key : τ → Key) (still : Database → τ → Bool) :
    List τ → Sql SqlError (List τ)
  | [] => return []
  | x :: xs => do
    let newest ← lockRow (key x) .update
    if still newest x then do
      emit (.put (key x) none)
      let rest ← delete_rows key still xs
      return x :: rest
    else delete_rows key still xs

/-- `DELETE ... RETURNING`: the rows `found` names; `still` is the `WHERE` on one row. -/
def delete_where {τ : Type} (found : Database → List τ) (key : τ → Key)
    (still : Database → τ → Bool) : Sql SqlError (List τ) := do
  let db ← snapshot
  delete_rows key still (found db)

/-- A plain `SELECT`. -/
def select {τ : Type} (q : Database → τ) : Sql SqlError τ := do
  let db ← snapshot
  return q db

/-- `check` constraints and row security, as one verdict on a new row. -/
def admit_if (b : Bool) (e : SqlError) : Except SqlError Unit := if b then .ok () else .error e

/-- A test that admits has succeeded. -/
theorem admitted_if {b : Bool} {e : SqlError} (h : admit_if b e = .ok ()) : b = true := by
  cases b with
  | true => rfl
  | false => cases h

/-- A test in front of the others: both have succeeded. -/
theorem admitted_else {b : Bool} {e : SqlError} {x : Except SqlError Unit}
    (h : (if !b then .error e else x) = .ok ()) : b = true ∧ x = .ok () := by
  cases b with
  | true => exact ⟨rfl, h⟩
  | false => cases h

/-- PostgreSQL text cannot hold U+0000. -/
def storable (t : Text) : Bool := !t.contains '\x00'

end Fukulow
