/-
Keyed rows with finite support: the committed state a transaction system works on.

A `Store` is a partial function from keys to rows whose type may depend on the
key, together with a list of keys that covers its support. The function is what
proofs look at: two facts about `put` (`get_put_self`, `get_put_of_ne`) are the
whole interface to updates. The list is what a query needs: `select` scans it,
so a `SELECT` is computable, and `mem_select` says what it returns without
mentioning the list. That the list covers the support is a field, so no later
proof carries it around.
-/
import Mathlib.Data.List.Dedup
import Mathlib.Data.List.Sort
import Mathlib.Logic.Function.Basic

set_option autoImplicit false

namespace Txn

/-- Rows by key, with a list of keys that covers the support. -/
structure Store (κ : Type) (ρ : κ → Type) where
  get : (k : κ) → Option (ρ k)
  keys : List κ
  covers : ∀ k, get k ≠ none → k ∈ keys

namespace Store

variable {κ : Type} {ρ : κ → Type} {β : Type}

/-- No rows. -/
def empty : Store κ ρ := ⟨fun _ => none, [], fun _ h => absurd rfl h⟩

@[simp] theorem get_empty (k : κ) : (empty : Store κ ρ).get k = none := rfl

@[simp] theorem keys_empty : (empty : Store κ ρ).keys = [] := rfl

section Put

variable [DecidableEq κ]

/-- Insert, replace or (with `none`) delete the row of one key. -/
def put (s : Store κ ρ) (k : κ) (r : Option (ρ k)) : Store κ ρ where
  get := Function.update s.get k r
  keys := k :: s.keys
  covers := by
    intro k' h
    by_cases hk : k' = k
    · exact hk ▸ List.mem_cons_self
    · rw [Function.update_of_ne hk] at h
      exact List.mem_cons_of_mem _ (s.covers k' h)

/-- A write is what is read afterwards. -/
@[simp] theorem get_put_self (s : Store κ ρ) (k : κ) (r : Option (ρ k)) :
    (s.put k r).get k = r := by
  simp only [put, Function.update_self]

/-- Other keys are as they were. -/
theorem get_put_of_ne {s : Store κ ρ} {k k' : κ} {r : Option (ρ k)} (h : k' ≠ k) :
    (s.put k r).get k' = s.get k' := by
  simp only [put, Function.update_of_ne h]

end Put

/-! ## Queries -/

section Select

variable [DecidableEq β]

/-- `SELECT DISTINCT`: what `p` makes of each stored row, without repetitions. -/
def select (s : Store κ ρ) (p : (k : κ) → ρ k → Option β) : List β :=
  (s.keys.filterMap fun k => (s.get k).bind (p k)).dedup

/-- A query gives what it makes of some stored row. -/
theorem mem_select {s : Store κ ρ} {p : (k : κ) → ρ k → Option β} {b : β} :
    b ∈ s.select p ↔ ∃ k r, s.get k = some r ∧ p k r = some b := by
  simp only [select, List.mem_dedup, List.mem_filterMap, Option.bind_eq_some_iff]
  constructor
  · rintro ⟨k, -, r, hr, hb⟩
    exact ⟨k, r, hr, hb⟩
  · rintro ⟨k, r, hr, hb⟩
    exact ⟨k, s.covers k (by simp [hr]), r, hr, hb⟩

/-- A query finds something exactly if some stored row gives something. -/
theorem select_nonempty_iff {s : Store κ ρ} {p : (k : κ) → ρ k → Option β} :
    (!(s.select p).isEmpty) = true ↔ ∃ k r b, s.get k = some r ∧ p k r = some b := by
  rw [Bool.not_eq_true', Bool.eq_false_iff, Ne, List.isEmpty_iff, List.eq_nil_iff_forall_not_mem]
  simp only [not_forall, not_not, mem_select]
  exact ⟨fun ⟨b, k, r, h⟩ => ⟨k, r, b, h⟩, fun ⟨k, r, b, h⟩ => ⟨b, k, r, h⟩⟩

/-- Only what `p` makes of stored rows matters, so conditions on rows that are not there can be
left out or added. -/
theorem select_congr {s : Store κ ρ} {p p' : (k : κ) → ρ k → Option β}
    (h : ∀ k r, s.get k = some r → p k r = p' k r) : s.select p = s.select p' := by
  rw [select, select, List.filterMap_congr fun k _ => ?_]
  cases hr : s.get k with
  | none => rfl
  | some r => exact h k r hr

/-- No result comes twice. -/
theorem nodup_select (s : Store κ ρ) (p : (k : κ) → ρ k → Option β) : (s.select p).Nodup :=
  List.nodup_dedup _

variable [LinearOrder β]

/-- `SELECT DISTINCT ... ORDER BY`: the same rows in ascending order. -/
def selectSorted (s : Store κ ρ) (p : (k : κ) → ρ k → Option β) : List β :=
  (s.select p).insertionSort (· ≤ ·)

/-- Sorting changes no result. -/
theorem mem_selectSorted {s : Store κ ρ} {p : (k : κ) → ρ k → Option β} {b : β} :
    b ∈ s.selectSorted p ↔ ∃ k r, s.get k = some r ∧ p k r = some b := by
  rw [selectSorted, List.mem_insertionSort, mem_select]

/-- Nor does it repeat one. -/
theorem nodup_selectSorted (s : Store κ ρ) (p : (k : κ) → ρ k → Option β) :
    (s.selectSorted p).Nodup :=
  (List.perm_insertionSort _ _).nodup_iff.mpr (nodup_select s p)

/-- The results are in ascending order. -/
theorem sorted_selectSorted (s : Store κ ρ) (p : (k : κ) → ρ k → Option β) :
    (s.selectSorted p).Pairwise (· ≤ ·) :=
  List.pairwise_insertionSort _ _

end Select

end Store

end Txn
