/-
PostgreSQL's four row-lock strengths and their conflict table.

`keyShare` is what a foreign-key check takes on the row it references, `share`
and `update` are what `FOR SHARE` and `FOR UPDATE` take, `noKeyUpdate` is what
an `UPDATE` takes that leaves the key columns alone, and a `DELETE` takes
`update`. A mode conflicts with every mode from the mirrored position upwards,
so the table is one comparison of strengths.
-/
import Mathlib.Data.List.Basic

set_option autoImplicit false

namespace Txn

/-- The strength of a row lock, weakest first. -/
inductive LockMode where
  | keyShare
  | share
  | noKeyUpdate
  | update
deriving DecidableEq, Repr

namespace LockMode

/-- Position in the strength order. -/
def strength : LockMode → ℕ
  | keyShare => 0
  | share => 1
  | noKeyUpdate => 2
  | update => 3

/-- The conflict table: `keyShare` conflicts with `update` only, `share` with the
two writing modes, `noKeyUpdate` with all but `keyShare`, `update` with all. -/
def conflicts : LockMode → LockMode → Bool
  | keyShare, update | update, keyShare => true
  | keyShare, _ | _, keyShare => false
  | share, share => false
  | _, _ => true

/-- Conflicts are mutual. -/
theorem conflicts_comm (m m' : LockMode) : m.conflicts m' = m'.conflicts m := by
  cases m <;> cases m' <;> rfl

/-- The strongest mode conflicts with every mode, whoever holds which. -/
@[simp] theorem update_conflicts (m : LockMode) : update.conflicts m = true := by
  cases m <;> rfl

@[simp] theorem conflicts_update (m : LockMode) : m.conflicts update = true := by
  cases m <;> rfl

/-- The modes that let their holder write the row: no two transactions hold one. -/
def writes (m : LockMode) : Prop := noKeyUpdate.strength ≤ m.strength

instance (m : LockMode) : Decidable m.writes := Nat.decLe _ _

/-- A writer's mode conflicts with `share` and everything stronger. So whoever holds a `share` lock
knows that the row is not being written, and foreign-key checks alone get past a writer. -/
theorem writes.conflicts {m n : LockMode} (h : m.writes) (hn : share.strength ≤ n.strength) :
    m.conflicts n = true := by
  revert h hn
  cases m <;> cases n <;> decide

end LockMode

end Txn
