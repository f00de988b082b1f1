/-
Unique entries, kept by locks.

Two transactions that insert the same entry must not both commit, and neither sees what the
other has not committed. So an insert locks the entry first and looks whether it is in use
then. `Enters` says of a program's text that it does this for every row it inserts, and after
that inserts no more; `wp_enters` says what it comes to: at the end the program still holds
those locks, and the entries are still free. All that is asked of the rules is that nobody
uses an entry that is free while someone else has it locked.

`Emits` bounds the writes of a program by its text, and `Returns` what it can answer.
-/
import Fukulow.Txn.Strengthening

set_option autoImplicit false

namespace Txn

variable {σ ω ρ μ γ ε ε' α α' β : Type}

/-! ## What a program writes -/

namespace Prog

/-- Every write of the program satisfies `P`. -/
def Emits (P : ω → Prop) : Prog σ ω ρ μ ε α → Prop
  | .pure _ => True
  | .throw _ => True
  | .read k => ∀ s, (k s).Emits P
  | .lock _ _ k => ∀ s, (k s).Emits P
  | .write u k => P u ∧ k.Emits P
  | .restart k => k.Emits P

variable {P : ω → Prop}

/-- What a sequence of two programs writes is what either writes. -/
theorem emits_bind {p : Prog σ ω ρ μ ε α} {f : α → Prog σ ω ρ μ ε α'} (hp : p.Emits P)
    (hf : ∀ a, (f a).Emits P) : (p >>= f).Emits P := by
  induction p with
  | pure a => exact hf a
  | throw e => trivial
  | read k ih => exact fun s => ih s (hp s)
  | lock r m k ih => exact fun s => ih s (hp s)
  | write u k ih => exact ⟨hp.1, ih hp.2⟩
  | restart k ih => exact ih hp

theorem emits_of_forall {p : Prog σ ω ρ μ ε α} (h : ∀ u, P u) : p.Emits P := by
  induction p with
  | pure a => trivial
  | throw e => trivial
  | read k ih => exact fun s => ih s
  | lock r m k ih => exact fun s => ih s
  | write u k ih => exact ⟨h u, ih⟩
  | restart k ih => exact ih

theorem emits_mapError {g : ε → ε'} {p : Prog σ ω ρ μ ε α} :
    (p.mapError g).Emits P ↔ p.Emits P := by
  induction p with
  | pure a => exact Iff.rfl
  | throw e => exact Iff.rfl
  | read k ih => exact forall_congr' fun s => ih s
  | lock r m k ih => exact forall_congr' fun s => ih s
  | write u k ih => exact and_congr_right fun _ => ih
  | restart k ih => exact ih

theorem emits_answer {g : Except ε α → β} {p : Prog σ ω ρ μ ε α} :
    (p.answer g).Emits P ↔ p.Emits P := by
  induction p with
  | pure a => exact Iff.rfl
  | throw e => exact Iff.rfl
  | read k ih => exact forall_congr' fun s => ih s
  | lock r m k ih => exact forall_congr' fun s => ih s
  | write u k ih => exact and_congr_right fun _ => ih
  | restart k ih => exact ih

/-- What a loop writes is what its rounds write. -/
theorem emits_forM {τ : Type} {f : τ → Prog σ ω ρ μ ε PUnit} (hf : ∀ x, (f x).Emits P)
    (xs : List τ) : (xs.forM f).Emits P := by
  induction xs with
  | nil => trivial
  | cons x xs ih => exact emits_bind (hf x) fun _ => ih

/-- Whatever the program reads, what it returns satisfies `Q`. -/
def Returns (Q : α → Prop) : Prog σ ω ρ μ ε α → Prop
  | .pure a => Q a
  | .throw _ => True
  | .read k => ∀ s, (k s).Returns Q
  | .lock _ _ k => ∀ s, (k s).Returns Q
  | .write _ k => k.Returns Q
  | .restart k => k.Returns Q

variable {Q : α → Prop}

/-- What is returned is what the last part returns. -/
theorem returns_bind {Q : α' → Prop} {p : Prog σ ω ρ μ ε α} {f : α → Prog σ ω ρ μ ε α'}
    (hf : ∀ a, (f a).Returns Q) : (p >>= f).Returns Q := by
  induction p with
  | pure a => exact hf a
  | throw e => trivial
  | read k ih => exact fun s => ih s
  | lock r m k ih => exact fun s => ih s
  | write u k ih => exact ih
  | restart k ih => exact ih

theorem returns_mapError {g : ε → ε'} {p : Prog σ ω ρ μ ε α} :
    (p.mapError g).Returns Q ↔ p.Returns Q := by
  induction p with
  | pure a => exact Iff.rfl
  | throw e => exact Iff.rfl
  | read k ih => exact forall_congr' fun s => ih s
  | lock r m k ih => exact forall_congr' fun s => ih s
  | write u k ih => exact ih
  | restart k ih => exact ih

theorem Returns.mono {Q' : α → Prop} {p : Prog σ ω ρ μ ε α} (h : p.Returns Q)
    (hQ : ∀ a, Q a → Q' a) : p.Returns Q' := by
  induction p with
  | pure a => exact hQ a h
  | throw e => trivial
  | read k ih => exact fun s => ih s (h s)
  | lock r m k ih => exact fun s => ih s (h s)
  | write u k ih => exact ih h
  | restart k ih => exact ih h

/-- What comes after a program need write no more than it does for what that one returns. Without
it, a write of a row that was read just before could be any row. -/
theorem emits_bind_returns {p : Prog σ ω ρ μ ε α} {f : α → Prog σ ω ρ μ ε α'} (hp : p.Emits P)
    (hQ : p.Returns Q) (hf : ∀ a, Q a → (f a).Emits P) : (p >>= f).Emits P := by
  induction p with
  | pure a => exact hf a hQ
  | throw e => trivial
  | read k ih => exact fun s => ih s (hp s) (hQ s)
  | lock r m k ih => exact fun s => ih s (hp s) (hQ s)
  | write u k ih => exact ⟨hp.1, ih hp.2 hQ⟩
  | restart k ih => exact ih hp hQ

end Prog

/-! ## Entering an index -/

/-- An index over states that writes change as `apply` says: which entries are in use, which
writes touch the indexed rows at all, and which entries the row of such a write has. -/
structure Index (apply : ω → σ → σ) (ρ : Type) where
  used : σ → ρ → Prop
  touches : ω → Prop
  entries : ω → List ρ
  frame : ∀ u s r, ¬ touches u → (used (apply u s) r ↔ used s r)

namespace Index

variable {apply : ω → σ → σ} (I : Index apply ρ) (full : μ)

/-- The program touches the indexed rows in one write at most, and before it has locked the
entries of that row in the mode `full` and found them free. `C` are those found free so far. -/
def Enters : List ρ → Prog σ ω ρ μ ε α → Prop
  | _, .pure _ => True
  | _, .throw _ => True
  | C, .read k => ∀ s, Enters C (k s)
  | C, .lock r m k => ∀ s, (m = full → ¬ I.used s r → Enters (r :: C) (k s))
      ∧ (m ≠ full ∨ I.used s r → Enters C (k s))
  | C, .write u k => (I.touches u → (∀ r ∈ I.entries u, r ∈ C) ∧ k.Emits fun v => ¬ I.touches v)
      ∧ (¬ I.touches u → Enters C k)
  | _, .restart k => Enters [] k

variable {I full} {C C' : List ρ}

/-- More entries that are free do no harm: `C` only ever answers whether an entry has been looked
at. -/
theorem Enters.mono {p : Prog σ ω ρ μ ε α} (h : I.Enters full C p) (hC : C ⊆ C') :
    I.Enters full C' p := by
  induction p generalizing C C' with
  | pure a => trivial
  | throw e => trivial
  | read k ih => exact fun s => ih s (h s) hC
  | lock r m k ih =>
      intro s
      refine ⟨fun hm hfree => ?_, fun hnot => ih s ((h s).2 hnot) hC⟩
      exact ih s ((h s).1 hm hfree) (List.cons_subset_cons r hC)
  | write u k ih =>
      refine ⟨fun hu => ⟨fun r hr => hC ((h.1 hu).1 r hr), (h.1 hu).2⟩, fun hu => ih (h.2 hu) hC⟩
  | restart k => exact h

/-- A program that leaves the indexed rows alone has nothing to lock. -/
theorem enters_of_emits {p : Prog σ ω ρ μ ε α} (h : p.Emits fun u => ¬ I.touches u) :
    I.Enters full C p := by
  induction p generalizing C with
  | pure a => trivial
  | throw e => trivial
  | read k ih => exact fun s => ih s (h s)
  | lock r m k ih => exact fun s => ⟨fun _ _ => ih s (h s), fun _ => ih s (h s)⟩
  | write u k ih => exact ⟨fun hu => absurd hu h.1, fun _ => ih h.2⟩
  | restart k ih => exact ih h

/-- First a part that leaves the indexed rows alone. What it has found free is forgotten, which is
all that can be done: it may have restarted the transaction. -/
theorem enters_bind {p : Prog σ ω ρ μ ε α} {f : α → Prog σ ω ρ μ ε α'}
    (hp : p.Emits fun u => ¬ I.touches u) (hf : ∀ a, I.Enters full [] (f a)) :
    I.Enters full C (p >>= f) := by
  induction p generalizing C with
  | pure a => exact (hf a).mono (List.nil_subset _)
  | throw e => trivial
  | read k ih => exact fun s => ih s (hp s)
  | lock r m k ih => exact fun s => ⟨fun _ _ => ih s (hp s), fun _ => ih s (hp s)⟩
  | write u k ih => exact ⟨fun hu => absurd hu hp.1, fun _ => ih hp.2⟩
  | restart k ih => exact ih hp

/-- Last a part that leaves them alone. It may write, but no indexed row: the one write that is
allowed has been made. -/
theorem Enters.bind {p : Prog σ ω ρ μ ε α} {f : α → Prog σ ω ρ μ ε α'} (hp : I.Enters full C p)
    (hf : ∀ a, (f a).Emits fun u => ¬ I.touches u) : I.Enters full C (p >>= f) := by
  induction p generalizing C with
  | pure a => exact enters_of_emits (hf a)
  | throw e => trivial
  | read k ih => exact fun s => ih s (hp s)
  | lock r m k ih =>
      exact fun s => ⟨fun hm hfree => ih s ((hp s).1 hm hfree), fun hnot => ih s ((hp s).2 hnot)⟩
  | write u k ih =>
      refine ⟨fun hu => ⟨(hp.1 hu).1, Prog.emits_bind (hp.1 hu).2 hf⟩, fun hu => ih (hp.2 hu)⟩
  | restart k ih => exact ih hp

theorem enters_mapError {g : ε → ε'} {p : Prog σ ω ρ μ ε α} :
    I.Enters full C (p.mapError g) ↔ I.Enters full C p := by
  induction p generalizing C with
  | pure a => exact Iff.rfl
  | throw e => exact Iff.rfl
  | read k ih => exact forall_congr' fun s => ih s
  | lock r m k ih =>
      refine forall_congr' fun s => and_congr ?_ ?_
      · exact forall_congr' fun _ => forall_congr' fun _ => ih s
      · exact forall_congr' fun _ => ih s
  | write u k ih =>
      refine and_congr ?_ (forall_congr' fun _ => ih)
      exact forall_congr' fun _ => and_congr_right fun _ => Prog.emits_mapError
  | restart k ih => exact ih

theorem enters_answer {g : Except ε α → β} {p : Prog σ ω ρ μ ε α} :
    I.Enters full C (p.answer g) ↔ I.Enters full C p := by
  induction p generalizing C with
  | pure a => exact Iff.rfl
  | throw e => exact Iff.rfl
  | read k ih => exact forall_congr' fun s => ih s
  | lock r m k ih =>
      refine forall_congr' fun s => and_congr ?_ ?_
      · exact forall_congr' fun _ => forall_congr' fun _ => ih s
      · exact forall_congr' fun _ => ih s
  | write u k ih =>
      refine and_congr ?_ (forall_congr' fun _ => ih)
      exact forall_congr' fun _ => and_congr_right fun _ => Prog.emits_answer
  | restart k ih => exact ih

/-- Own writes that leave the indexed rows alone do not show in the index, so an insert that looks
through its transaction's writes sees the committed entries. -/
theorem used_overlay {ws : List ω} (hws : ∀ u ∈ ws, ¬ I.touches u) (s : σ) (r : ρ) :
    I.used (Prog.overlay apply ws s) r ↔ I.used s r := by
  induction ws generalizing s with
  | nil => exact Iff.rfl
  | cons u ws ih =>
      obtain ⟨hu, hws⟩ := List.forall_mem_cons.mp hws
      rw [Prog.overlay_cons, ih hws, I.frame u s r hu]

/-! ## What it comes to -/

/-- The entries of the rows written so far are locked, and free in the committed state. -/
def Entered (I : Index apply ρ) (full : μ) (L : List (ρ × μ)) (ws : List ω) (s : σ) : Prop :=
  ∀ u ∈ ws, I.touches u → ∀ r ∈ I.entries u, (r, full) ∈ L ∧ ¬ I.used s r

variable {E : Engine σ ω ρ μ γ β} {R : Rules E} {J : Index E.apply ρ}
variable {L L' : List (ρ × μ)} {ws : List ω} {w w' : World σ ω ρ μ γ β}

/-- Under the rules, an entry that is free stays free for whoever has it locked. -/
def Reserved (J : Index E.apply ρ) (full : μ) (R : Rules E) : Prop :=
  ∀ r L w w', (r, full) ∈ L → R.Later L w w' → ¬ J.used w.store r → ¬ J.used w'.store r

/-- What is locked and free stays so, while others end and more locks are taken. -/
theorem Entered.later (hR : J.Reserved full R) (h : J.Entered full L ws w.store) (hL : L ⊆ L')
    (hl : R.Later L w w') : J.Entered full L' ws w'.store := by
  intro u hu htouch r hr
  obtain ⟨hlock, hfree⟩ := h u hu htouch r hr
  exact ⟨hL hlock, hR r L w w' hlock hl hfree⟩

/-- After the write, what was entered stays so: the rest writes no indexed row and gives up no
lock, unless it restarts, and then there is no write any more. -/
theorem wp_emits (hR : J.Reserved full R) {p : Prog σ ω ρ μ ε α}
    (hp : p.Emits fun u => ¬ J.touches u) (h : J.Entered full L ws w.store) :
    R.wp (fun L ws _ w => J.Entered full L ws w.store) (fun _ _ _ => True) p L ws w := by
  induction p generalizing L ws w with
  | pure a => exact h
  | throw e => trivial
  | read k ih => exact fun w' hl _ => ih _ (hp _) (h.later hR (List.Subset.refl L) hl)
  | lock r m k ih => exact fun w' hl _ => ih _ (hp _) (h.later hR (List.subset_cons_self _ _) hl)
  | write u k ih =>
      refine ih hp.2 fun v hv htouch => ?_
      rcases List.mem_append.mp hv with hold | hnew
      · exact h v hold htouch
      · rw [List.mem_singleton.mp hnew] at htouch
        exact absurd htouch hp.1
  | restart k ih => exact ih hp fun u hu => absurd hu List.not_mem_nil

/-- **Entries stay free.** A program that enters an index as `Enters` says has the entries of what
it wrote locked at its end, and nobody else uses them. By induction on the program; the lock comes
before the look, so from the look on nobody else can use the entry. -/
theorem wp_enters (hR : J.Reserved full R) {p : Prog σ ω ρ μ ε α} (hp : J.Enters full C p)
    (hC : ∀ r ∈ C, (r, full) ∈ L ∧ ¬ J.used w.store r) (hws : ∀ u ∈ ws, ¬ J.touches u) :
    R.wp (fun L ws _ w => J.Entered full L ws w.store) (fun _ _ _ => True) p L ws w := by
  induction p generalizing C L ws w with
  | pure a => exact fun u hu htouch => absurd htouch (hws u hu)
  | throw e => trivial
  | read k ih =>
      intro w' hl _
      refine ih _ (hp _) (fun r hr => ?_) hws
      exact ⟨(hC r hr).1, hR r L w w' (hC r hr).1 hl (hC r hr).2⟩
  | lock r m k ih =>
      intro w' hl _
      have hkept : ∀ r' ∈ C, (r', full) ∈ (r, m) :: L ∧ ¬ J.used w'.store r' := fun r' hr' =>
        ⟨List.mem_cons_of_mem _ (hC r' hr').1, hR r' L w w' (hC r' hr').1 hl (hC r' hr').2⟩
      by_cases hfound : m = full ∧ ¬ J.used (E.view ws w'.store) r
      · -- One entry more that was found free, with its lock.
        obtain ⟨rfl, hfree⟩ := hfound
        refine ih _ ((hp _).1 rfl hfree) (List.forall_mem_cons.mpr ⟨?_, hkept⟩) hws
        exact ⟨List.mem_cons_self, (not_congr (J.used_overlay hws w'.store r)).mp hfree⟩
      · rw [not_and_or, not_not] at hfound
        exact ih _ ((hp _).2 hfound) hkept hws
  | write u k ih =>
      change R.wp _ _ k L (ws ++ [u]) w
      -- A write that uses entries: all of them were found free, under their locks.
      by_cases htouch : J.touches u
      · obtain ⟨hentries, hrest⟩ := hp.1 htouch
        refine wp_emits hR hrest fun v hv hv' r hr => ?_
        rcases List.mem_append.mp hv with hold | hnew
        · exact absurd hv' (hws v hold)
        · rw [List.mem_singleton.mp hnew] at hr
          exact hC r (hentries r hr)
      · refine ih (hp.2 htouch) hC fun v hv => ?_
        rcases List.mem_append.mp hv with hold | hnew
        · exact hws v hold
        · rw [List.mem_singleton.mp hnew]
          exact htouch
  | restart k ih =>
      exact ih hp (fun r hr => absurd hr List.not_mem_nil) fun u hu => absurd hu List.not_mem_nil

end Index

end Txn
