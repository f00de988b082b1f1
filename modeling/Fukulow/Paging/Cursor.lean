/-
Paging through a growing sequence with an exclusive cursor.

A source is a list in strictly ascending order of keys. A page holds the first so many
items after a cursor; the next cursor is the key of the page's last item, and the reader
stops at an empty page. `rest_of_split` is the one fact behind it: after the last item of
a page comes exactly what the page has left out. Descending order is ascending order of
the dual keys, so both directions are this one reader.
-/
import Mathlib.Data.List.Sort
import Mathlib.Order.WithBot

set_option autoImplicit false

namespace Paging

variable {α κ : Type} [LinearOrder κ] (key : α → κ)

/-- In strictly ascending order of keys. -/
def Ascending (xs : List α) : Prop := xs.Pairwise fun x y => key x < key y

/-- What comes after the cursor; `⊥` is the cursor before everything. -/
def rest (cursor : WithBot κ) (xs : List α) : List α :=
  xs.filter fun x => cursor < (key x : WithBot κ)

/-- The pages of a reader whose calls meet these sources with these limits, up to the first
empty page. -/
def read : List (List α × ℕ) → WithBot κ → List (List α)
  | [], _ => []
  | (xs, n) :: calls, cursor =>
    match ((rest key cursor xs).take n).getLast? with
    | none => [[]]
    | some x => (rest key cursor xs).take n :: read calls (key x)

variable {key} {xs ys page tail : List α} {k : WithBot κ} {n : ℕ} {x : α}

/-! ## Sources in order -/

/-- Items with different keys come out of a sort in strictly ascending order. -/
theorem ascending_insertionSort (key : α → κ) {xs : List α}
    (h : xs.Pairwise fun x y => key x ≠ key y) :
    Ascending key (xs.insertionSort fun x y => key x ≤ key y) := by
  have : Std.Total fun x y : α => key x ≤ key y := ⟨fun x y => le_total (key x) (key y)⟩
  have : IsTrans α fun x y => key x ≤ key y := ⟨fun _ _ _ => le_trans⟩
  have hne : (xs.insertionSort fun x y => key x ≤ key y).Pairwise fun x y => key x ≠ key y :=
    ((List.perm_insertionSort _ xs).pairwise_iff Ne.symm).mpr h
  exact ((List.pairwise_insertionSort _ xs).and hne).imp fun hxy => lt_of_le_of_ne hxy.1 hxy.2

/-- Two sources in order with the same items are the same, so a source is known by what it holds.
-/
theorem Ascending.eq_of_mem (key : α → κ) {xs ys : List α} (hx : Ascending key xs)
    (hy : Ascending key ys) (h : ∀ x, x ∈ xs ↔ x ∈ ys) : xs = ys := by
  have : Std.Irrefl fun x y : α => key x < key y := ⟨fun x => lt_irrefl (key x)⟩
  have : Std.Antisymm fun x y : α => key x < key y := ⟨fun _ _ hxy hyx => absurd hyx hxy.asymm⟩
  exact List.Pairwise.eq_of_mem_iff hx hy h

/-! ## What comes after a cursor -/

/-- What comes after a cursor are the items with larger keys. -/
theorem mem_rest : x ∈ rest key k xs ↔ x ∈ xs ∧ k < (key x : WithBot κ) := by
  simp [rest]

/-- After the cursor before everything comes everything. -/
@[simp] theorem rest_bot : rest key ⊥ xs = xs := by
  simp [rest]

/-- What comes after a cursor is in order, as a part of the source. -/
theorem Ascending.rest (h : Ascending key xs) (k : WithBot κ) : Ascending key (rest key k xs) :=
  h.filter _

/-- A later cursor looks at what is left after an earlier one, so a reader never has to look back.
-/
theorem rest_rest {k' : WithBot κ} (h : k ≤ k') : rest key k' (rest key k xs) = rest key k' xs := by
  rw [rest, rest, rest, List.filter_filter]
  refine List.filter_congr fun y _ => ?_
  by_cases hy : k' < (key y : WithBot κ)
  · simp [hy, h.trans_lt hy]
  · simp [hy]

/-- A source in order is what comes up to a key and what comes after it. -/
theorem Ascending.split (h : Ascending key xs) (k : κ) :
    xs = xs.filter (fun x => key x ≤ k) ++ Paging.rest key k xs := by
  induction xs with
  | nil => rfl
  | cons x xs ih =>
      obtain ⟨hx, hxs⟩ := List.pairwise_cons.mp h
      by_cases hk : key x ≤ k
      · have hnot : ¬ (k : WithBot κ) < (key x : WithBot κ) := by simpa using hk
        rw [List.filter_cons_of_pos (by simpa using hk), Paging.rest,
          List.filter_cons_of_neg (by simpa using hnot), List.cons_append]
        exact congrArg _ (ih hxs)
      · -- From here on everything is after `k`.
        have hall : ∀ y ∈ xs, k < key y := fun y hy => (not_le.mp hk).trans (hx y hy)
        have hnone : xs.filter (fun y => key y ≤ k) = [] :=
          List.filter_eq_nil_iff.mpr fun y hy => by simpa using hall y hy
        rw [List.filter_cons_of_neg (by simpa using hk), hnone, List.nil_append, Paging.rest,
          List.filter_eq_self.mpr]
        rintro y hy
        obtain rfl | hy := List.mem_cons.mp hy
        · simpa using not_le.mp hk
        · simpa using hall y hy

/-- An item stands between what comes before it and what comes after it. -/
theorem Ascending.split_at (h : Ascending key xs) (hx : x ∈ xs) :
    xs = xs.filter (fun y => key y < key x) ++ x :: Paging.rest key (key x) xs := by
  obtain ⟨front, back, rfl⟩ := List.append_of_mem hx
  obtain ⟨-, htail, hcross⟩ := List.pairwise_append.mp h
  have hfront : ∀ y ∈ front, key y < key x := fun y hy => hcross y hy x List.mem_cons_self
  have hback : ∀ y ∈ back, key x < key y := (List.pairwise_cons.mp htail).1
  have hbefore : (front ++ x :: back).filter (fun y => key y < key x) = front := by
    have hin : front.filter (fun y => key y < key x) = front :=
      List.filter_eq_self.mpr fun y hy => by simpa using hfront y hy
    have hout : back.filter (fun y => key y < key x) = [] :=
      List.filter_eq_nil_iff.mpr fun y hy => by simpa using (hback y hy).le
    rw [List.filter_append, List.filter_cons_of_neg (by simp), hin, hout, List.append_nil]
  have hafter : Paging.rest key (key x) (front ++ x :: back) = back := by
    have hout : front.filter (fun y => (key x : WithBot κ) < (key y : WithBot κ)) = [] :=
      List.filter_eq_nil_iff.mpr fun y hy => by simpa using (hfront y hy).le
    have hin : back.filter (fun y => (key x : WithBot κ) < (key y : WithBot κ)) = back :=
      List.filter_eq_self.mpr fun y hy => by simpa using hback y hy
    rw [Paging.rest, List.filter_append, List.filter_cons_of_neg (by simp), hout, hin,
      List.nil_append]
  rw [hbefore, hafter]

/-- After the last item of a page comes what the page has left out: the items of the page come up
to it, and the others are larger because the source is in order. -/
theorem rest_of_split (h : Ascending key xs) (hsplit : rest key k xs = page ++ tail)
    (hlast : page.getLast? = some x) : rest key (key x) xs = tail := by
  have hasc : Ascending key (page ++ tail) := hsplit ▸ h.rest k
  have hx : x ∈ page := List.mem_of_getLast? hlast
  have hk : k ≤ (key x : WithBot κ) := by
    have hmem : x ∈ rest key k xs := hsplit ▸ List.mem_append_left _ hx
    exact (mem_rest.mp hmem).2.le
  rw [← rest_rest hk, hsplit, rest, List.filter_append]
  obtain ⟨hpage, -, hcross⟩ := List.pairwise_append.mp hasc
  have hbefore : page.filter (fun y => (key x : WithBot κ) < (key y : WithBot κ)) = [] := by
    refine List.filter_eq_nil_iff.mpr fun y hy => ?_
    obtain ⟨front, rfl⟩ := List.getLast?_eq_some_iff.mp hlast
    obtain hy | hy := List.mem_append.mp hy
    · have hlt := (List.pairwise_append.mp hpage).2.2 y hy x List.mem_cons_self
      simpa using hlt.le
    · cases List.mem_singleton.mp hy
      simp
  have hafter : tail.filter (fun y => (key x : WithBot κ) < (key y : WithBot κ)) = tail := by
    refine List.filter_eq_self.mpr fun y hy => ?_
    simpa using hcross x hx y hy
  rw [hbefore, hafter, List.nil_append]

/-! ## The reader -/

/-- The reader's call: the last page is empty, and otherwise something was read and the reader goes
on behind the last item. -/
theorem read_cons (xs : List α) (calls : List (List α × ℕ)) (hn : 0 < n) :
    (rest key k xs = [] ∧ read key ((xs, n) :: calls) k = [[]])
      ∨ ∃ x, ((rest key k xs).take n).getLast? = some x
        ∧ read key ((xs, n) :: calls) k
          = (rest key k xs).take n :: read key calls (key x) := by
  cases hlast : ((rest key k xs).take n).getLast? with
  | none =>
      refine .inl ⟨?_, by simp [read, hlast]⟩
      obtain hzero | hnil := List.take_eq_nil_iff.mp (List.getLast?_eq_none_iff.mp hlast)
      · exact absurd hzero hn.ne'
      · exact hnil
  | some x => exact .inr ⟨x, rfl, by simp [read, hlast]⟩

/-- **A reader reads everything.** What comes after the cursor may grow at its end between the
calls. If there are more calls than there is to read, the last page is empty, and the pages
are together what comes after the cursor in the source that the last call met. -/
theorem read_all {calls : List (List α × ℕ)} (bound : ℕ)
    (hasc : ∀ call ∈ calls, Ascending key call.1) (hlimit : ∀ call ∈ calls, 0 < call.2)
    (hgrow : calls.Pairwise fun x y => rest key k x.1 <+: rest key k y.1)
    (hbound : ∀ call ∈ calls, (rest key k call.1).length ≤ bound) (hlong : bound < calls.length) :
    ∃ pages call, read key calls k = pages ++ [[]] ∧ (∀ page ∈ pages, page ≠ [])
      ∧ calls[pages.length]? = some call ∧ pages.flatten = rest key k call.1 := by
  induction calls generalizing k bound with
  | nil => exact absurd hlong (Nat.not_lt_zero _)
  | cons call calls ih =>
      obtain ⟨xs, n⟩ := call
      rw [List.forall_mem_cons] at hasc hlimit hbound
      rw [List.pairwise_cons] at hgrow
      obtain ⟨hnil, hread⟩ | ⟨x, hlast, hread⟩ := read_cons (k := k) xs calls hlimit.1
      · exact ⟨[], (xs, n), hread, by simp, rfl, hnil.symm⟩
      · -- One page is read. What is left in a later source comes after its last item.
        have hpage : (rest key k xs).take n ≠ [] := fun h => by simp [h] at hlast
        have hsplit : ∀ call ∈ calls, rest key k call.1
            = (rest key k xs).take n ++ rest key (key x) call.1 := by
          intro call hcall
          obtain ⟨newer, hnewer⟩ := hgrow.1 call hcall
          have hparts : rest key k call.1
              = (rest key k xs).take n ++ ((rest key k xs).drop n ++ newer) := by
            rw [← List.append_assoc, List.take_append_drop, hnewer]
          rw [rest_of_split (hasc.2 call hcall) hparts hlast, hparts]
        have hk : k ≤ (key x : WithBot κ) :=
          (mem_rest.mp (List.mem_of_mem_take (List.mem_of_getLast? hlast))).2.le
        have hgrow' : calls.Pairwise fun x' y => rest key (key x) x'.1 <+: rest key (key x) y.1 := by
          have hlater : ∀ ys, rest key (key x) (rest key k ys) = rest key (key x) ys :=
            fun _ => rest_rest hk
          refine hgrow.2.imp fun {x' y} hprefix => ?_
          rw [← hlater x'.1, ← hlater y.1]
          exact hprefix.filter _
        have hpos : 0 < ((rest key k xs).take n).length := List.length_pos_iff.mpr hpage
        -- A page takes at least one item, so less is left for fewer calls.
        have hbound' : ∀ call ∈ calls, (rest key (key x) call.1).length ≤ bound - 1 := by
          intro call hcall
          have hle := hbound.2 call hcall
          rw [hsplit call hcall, List.length_append] at hle
          omega
        have hone : 1 ≤ bound := by
          have hle : (rest key k xs).length ≤ bound := hbound.1
          have hsub := (List.take_sublist n (rest key k xs)).length_le
          omega
        obtain ⟨pages, call, hrest, hfull, hcall, hflat⟩ :=
          ih (bound - 1) hasc.2 hlimit.2 hgrow' hbound' (by rw [List.length_cons] at hlong; omega)
        refine ⟨(rest key k xs).take n :: pages, call, ?_, ?_, hcall, ?_⟩
        · rw [hread, hrest, List.cons_append]
        · exact List.forall_mem_cons.mpr ⟨hpage, hfull⟩
        · rw [List.flatten_cons, hflat, hsplit call (List.mem_of_getElem? hcall)]

/-- **What is added in front is not read.** The pages are together what comes after the cursor
in the source that the first call met. -/
theorem read_back {calls : List (List α × ℕ)} {bound : ℕ} (hn : 0 < n) (hxs : Ascending key xs)
    (hasc : ∀ call ∈ calls, Ascending key call.1) (hlimit : ∀ call ∈ calls, 0 < call.2)
    (hgrow : ∀ call ∈ calls, xs <:+ call.1) (hbound : (rest key k xs).length ≤ bound)
    (hlong : bound < calls.length + 1) :
    ∃ pages, read key ((xs, n) :: calls) k = pages ++ [[]] ∧ (∀ page ∈ pages, page ≠ [])
      ∧ pages.flatten = rest key k xs := by
  obtain ⟨hnil, hread⟩ | ⟨x, hlast, hread⟩ := read_cons (k := k) xs calls hn
  · exact ⟨[], hread, by simp, hnil.symm⟩
  · have hpage : (rest key k xs).take n ≠ [] := fun h => by simp [h] at hlast
    have hsplit : rest key (key x) xs = (rest key k xs).drop n :=
      rest_of_split hxs (List.take_append_drop n _).symm hlast
    have hmem : x ∈ xs := (mem_rest.mp (List.mem_of_mem_take (List.mem_of_getLast? hlast))).1
    -- Whatever a later source has in front is before `x`.
    have hsame : ∀ call ∈ calls, rest key (key x) call.1 = (rest key k xs).drop n := by
      intro call hcall
      obtain ⟨newer, hnewer⟩ := hgrow call hcall
      have hcross := (List.pairwise_append.mp (hnewer ▸ hasc call hcall)).2.2
      rw [← hsplit, ← hnewer, rest, List.filter_append]
      have hnone : newer.filter (fun y => (key x : WithBot κ) < (key y : WithBot κ)) = [] :=
        List.filter_eq_nil_iff.mpr fun y hy => by simpa using (hcross y hy x hmem).le
      rw [hnone, List.nil_append]
      rfl
    have hpos : 0 < ((rest key k xs).take n).length := List.length_pos_iff.mpr hpage
    have hlength : ((rest key k xs).take n).length + ((rest key k xs).drop n).length
        = (rest key k xs).length := by
      rw [← List.length_append, List.take_append_drop]
    have hgrow' : calls.Pairwise fun x' y => rest key (key x) x'.1 <+: rest key (key x) y.1 := by
      refine List.Pairwise.imp_of_mem (R := fun _ _ => True) ?_
        (List.pairwise_of_forall fun _ _ => trivial)
      intro x' y hx' hy _
      exact ((hsame x' hx').trans (hsame y hy).symm) ▸ List.prefix_rfl
    obtain ⟨pages, call, hrest, hfull, hcall, hflat⟩ := read_all (bound - 1) hasc hlimit
      hgrow' (fun call hcall => by rw [hsame call hcall]; omega) (by omega)
    refine ⟨(rest key k xs).take n :: pages, by rw [hread, hrest, List.cons_append],
      List.forall_mem_cons.mpr ⟨hpage, hfull⟩, ?_⟩
    rw [List.flatten_cons, hflat, hsame call (List.mem_of_getElem? hcall), List.take_append_drop]

end Paging
