/-
Lists written in groups of given lengths, with a separator between two groups.

`join` writes a list in groups, `digits` leaves the separators out again, and `Separated` says
that they stand where they should. The last group is whatever is left, so no length is given
for it.
-/
import Mathlib

set_option autoImplicit false

namespace Groups

variable {α β : Type} {sep : α} {ns : List ℕ} {l d : List α}

/-- `d` in groups of lengths `ns`, and a last one. -/
def join (sep : α) : List ℕ → List α → List α
  | [], d => d
  | n :: ns, d => d.take n ++ sep :: join sep ns (d.drop n)

/-- What stands between the separators. -/
def digits : List ℕ → List α → List α
  | [], l => l
  | n :: ns, l => l.take n ++ digits ns (l.drop (n + 1))

/-- After each group stands a separator. -/
def Separated (sep : α) : List ℕ → List α → Prop
  | [], _ => True
  | n :: ns, l => l[n]? = some sep ∧ Separated sep ns (l.drop (n + 1))

instance decidableSeparated [DecidableEq α] (sep : α) :
    ∀ (ns : List ℕ) (l : List α), Decidable (Separated sep ns l)
  | [], _ => isTrue trivial
  | n :: ns, l =>
      have := decidableSeparated sep ns (l.drop (n + 1))
      inferInstanceAs (Decidable (_ ∧ _))

/-- Separated groups are their digits, joined: nothing but the separators was left out. -/
theorem join_digits (h : Separated sep ns l) : join sep ns (digits ns l) = l := by
  induction ns generalizing l with
  | nil => rfl
  | cons n ns ih =>
      obtain ⟨hsep, hrest⟩ := h
      obtain ⟨hn, hget⟩ := List.getElem?_eq_some_iff.mp hsep
      have hlength : (l.take n).length = n := by
        rw [List.length_take]
        omega
      rw [digits, join, List.take_left' hlength, List.drop_left' hlength, ih hrest, ← hget,
        List.getElem_cons_drop, List.take_append_drop]

section Join

variable {n : ℕ} {rest : List α}

/-- The first group has its length. -/
theorem length_group (h : (n :: ns).sum ≤ d.length) : (d.take n).length = n := by
  rw [List.sum_cons] at h
  rw [List.length_take]
  omega

/-- Behind the first group there is enough for the others. -/
theorem sum_rest (h : (n :: ns).sum ≤ d.length) : ns.sum ≤ (d.drop n).length := by
  rw [List.sum_cons] at h
  rw [List.length_drop]
  omega

/-- Past a group and its separator. -/
theorem drop_group (h : d.length = n) : (d ++ sep :: rest).drop (n + 1) = rest := by
  rw [← List.singleton_append, ← List.append_assoc]
  refine List.drop_left' ?_
  rw [List.length_append, List.length_singleton, h]

end Join

/-- What was joined is read back, if there is enough for every group. -/
theorem digits_join (h : ns.sum ≤ d.length) : digits ns (join sep ns d) = d := by
  induction ns generalizing d with
  | nil => rfl
  | cons n ns ih =>
      rw [join, digits, List.take_left' (length_group h), drop_group (length_group h),
        ih (sum_rest h), List.take_append_drop]

/-- What was joined is separated. -/
theorem separated_join (h : ns.sum ≤ d.length) : Separated sep ns (join sep ns d) := by
  induction ns generalizing d with
  | nil => trivial
  | cons n ns ih =>
      rw [join]
      refine ⟨?_, ?_⟩
      · rw [List.getElem?_append_right (length_group h).le, length_group h, Nat.sub_self]
        rfl
      · rw [drop_group (length_group h)]
        exact ih (sum_rest h)

/-- Joining adds a separator for each given length. -/
theorem length_join (h : ns.sum ≤ d.length) : (join sep ns d).length = d.length + ns.length := by
  induction ns generalizing d with
  | nil => rfl
  | cons n ns ih =>
      have hle := h
      rw [List.sum_cons] at hle
      rw [join, List.length_append, length_group h, List.length_cons, ih (sum_rest h),
        List.length_drop, List.length_cons]
      omega

/-- To map what is joined is to join what is mapped, with the mapped separator. -/
theorem map_join (f : α → β) : (join sep ns d).map f = join (f sep) ns (d.map f) := by
  induction ns generalizing d with
  | nil => rfl
  | cons n ns ih => rw [join, join, List.map_append, List.map_cons, ih, List.map_take, List.map_drop]

/-- Separators can be told from their images, where only the separator has the separator's image.
-/
theorem Separated.of_map {f : α → β} {sep' : β} (h : Separated sep' ns (l.map f))
    (hf : ∀ x, f x = sep' → x = sep) : Separated sep ns l := by
  induction ns generalizing l with
  | nil => trivial
  | cons n ns ih =>
      obtain ⟨hsep, hrest⟩ := h
      rw [List.getElem?_map, Option.map_eq_some_iff] at hsep
      obtain ⟨x, hx, hfx⟩ := hsep
      rw [← List.map_drop] at hrest
      exact ⟨hf x hfx ▸ hx, ih hrest⟩

/-- Leaving the separators out takes one for each given length. -/
theorem length_digits (h : Separated sep ns l) : (digits ns l).length + ns.length = l.length := by
  induction ns generalizing l with
  | nil => rfl
  | cons n ns ih =>
      obtain ⟨hsep, hrest⟩ := h
      obtain ⟨hn, -⟩ := List.getElem?_eq_some_iff.mp hsep
      have hlength := ih hrest
      rw [List.length_drop] at hlength
      rw [digits, List.length_append, List.length_take, List.length_cons]
      omega

/-- What is joined has separators and the items of the list, nothing else. -/
theorem mem_join {x : α} (h : x ∈ join sep ns d) : x = sep ∨ x ∈ d := by
  induction ns generalizing d with
  | nil => exact .inr h
  | cons n ns ih =>
      rw [join, List.mem_append, List.mem_cons] at h
      rcases h with hx | rfl | hx
      · exact .inr (List.mem_of_mem_take hx)
      · exact .inl rfl
      · exact (ih hx).imp_right List.mem_of_mem_drop

end Groups
