/-
A check that is not protected by a lock.

A program reads a state, finds it `good`, and goes on to take a lock; nothing it holds keeps
the state good from there on. Such a program passes a `Gate`: it takes no lock of the kind
`passes` unless the read just before showed a good state. `Through` is the weakest
precondition for that, with rules for each way of putting programs together; it knows two
facts, whether the last action saw a good state and whether a lock of that kind is held.

What is left is a condition on runs. `Passed` calls are the ones that wait for such a lock
or hold one; while nothing that ends makes the state bad for a passed call, every call that
holds such a lock at its end ends in a good state (`Gate.Kept.good`).
-/
import Fukulow.Txn.Runs

set_option autoImplicit false

namespace Txn

variable {σ ω ρ μ γ ε ε' α α' β : Type}

/-- What a gate asks of the state, the locks behind it, and the writes that cannot make a
good state bad. -/
structure Gate (σ ω ρ : Type) where
  good : σ → Prop
  passes : ρ → Prop
  safe : ω → Prop

namespace Gate

variable (D : Gate σ ω ρ)

/-- Every lock behind the gate is taken right after a good state was seen (`G`), or with one
of them held already (`H`); every write is safe; and `Q` is true of `G`, `H` and the answer. -/
def Through (Q : Prop → Prop → α → Prop) : Prog σ ω ρ μ ε α → Prop → Prop → Prop
  | .pure a, G, H => Q G H a
  | .throw _, _, _ => True
  | .read k, _, H => ∀ s, Through Q (k s) (D.good s) H
  | .lock r _ k, G, H => (D.passes r → H ∨ G) ∧ ∀ s, Through Q (k s) (D.good s) (H ∨ D.passes r)
  | .write u k, _, H => D.safe u ∧ Through Q k False H
  | .restart k, _, _ => Through Q k False False

variable {D} {Q Q' : Prop → Prop → α → Prop} {G H : Prop}

/-- The second program goes on from what the first has seen last and from the locks it holds. -/
theorem through_bind {Q : Prop → Prop → α' → Prop} {p : Prog σ ω ρ μ ε α}
    {f : α → Prog σ ω ρ μ ε α'} :
    D.Through Q (p >>= f) G H ↔ D.Through (fun G H a => D.Through Q (f a) G H) p G H := by
  induction p generalizing G H with
  | pure a => exact Iff.rfl
  | throw e => exact Iff.rfl
  | read k ih => exact forall_congr' fun s => ih s
  | lock r m k ih => exact and_congr_right fun _ => forall_congr' fun s => ih s
  | write u k ih => exact and_congr_right fun _ => ih
  | restart k ih => exact ih

theorem through_mapError {g : ε → ε'} {p : Prog σ ω ρ μ ε α} :
    D.Through Q (p.mapError g) G H ↔ D.Through Q p G H := by
  induction p generalizing G H with
  | pure a => exact Iff.rfl
  | throw e => exact Iff.rfl
  | read k ih => exact forall_congr' fun s => ih s
  | lock r m k ih => exact and_congr_right fun _ => forall_congr' fun s => ih s
  | write u k ih => exact and_congr_right fun _ => ih
  | restart k ih => exact ih

theorem through_answer {Q : Prop → Prop → β → Prop} {g : Except ε α → β}
    {p : Prog σ ω ρ μ ε α} :
    D.Through Q (p.answer g) G H ↔ D.Through (fun G H a => Q G H (g (.ok a))) p G H := by
  induction p generalizing G H with
  | pure a => exact Iff.rfl
  | throw e => exact Iff.rfl
  | read k ih => exact forall_congr' fun s => ih s
  | lock r m k ih => exact and_congr_right fun _ => forall_congr' fun s => ih s
  | write u k ih => exact and_congr_right fun _ => ih
  | restart k ih => exact ih

/-- A weaker conclusion about the same passage. -/
theorem through_mono {p : Prog σ ω ρ μ ε α} (h : D.Through Q p G H)
    (hQ : ∀ G H a, Q G H a → Q' G H a) : D.Through Q' p G H := by
  induction p generalizing G H with
  | pure a => exact hQ _ _ _ h
  | throw e => trivial
  | read k ih => exact fun s => ih s (h s)
  | lock r m k ih => exact ⟨h.1, fun s => ih s (h.2 s)⟩
  | write u k ih => exact ⟨h.1, ih h.2⟩
  | restart k ih => exact ih h

/-- A gate that asks for less is passed as well. The facts `G` and `G'` run side by side: whenever
the one gate has just seen a good state, so has the other. -/
theorem through_weaken {good' : σ → Prop} {p : Prog σ ω ρ μ ε α} {G' : Prop}
    (h : D.Through Q p G H) (hgood : ∀ s, D.good s → good' s) (hG : G → G')
    (hQ : ∀ G G' H a, (G → G') → Q G H a → Q' G' H a) :
    Through { D with good := good' } Q' p G' H := by
  induction p generalizing G G' H with
  | pure a => exact hQ _ _ _ _ hG h
  | throw e => trivial
  | read k ih => exact fun s => ih s (h s) (hgood s)
  | lock r m k ih => exact ⟨fun hr => (h.1 hr).imp_right hG, fun s => ih s (h.2 s) (hgood s)⟩
  | write u k ih => exact ⟨h.1, ih h.2 id⟩
  | restart k ih => exact ih h id

/-! ## Calls in flight -/

/-- The call waits for a lock behind the gate, or holds one. -/
def Passed (D : Gate σ ω ρ) (x : Task σ ω ρ μ γ β) : Prop :=
  (∃ r m k, x.prog = .lock r m k ∧ D.passes r) ∨ ∃ h ∈ x.held, D.passes h.1

variable {E : Engine σ ω ρ μ γ β} {x x' : Task σ ω ρ μ γ β}
  {v : World σ ω ρ μ γ β}

/-- What is known of a call on its way through the gate: the rest of it keeps to `Through`,
and what it saw before a lock behind the gate, or has since it holds one, is still so. -/
structure Kept (D : Gate σ ω ρ) (fin : β → Prop) (x : Task σ ω ρ μ γ β)
    (v : World σ ω ρ μ γ β) : Prop where
  through : ∃ G : Prop, D.Through (fun _ H b => fin b → H) x.prog G (∃ h ∈ x.held, D.passes h.1)
    ∧ (G → (∃ r m k, x.prog = .lock r m k ∧ D.passes r) → D.good v.store)
  held : (∃ h ∈ x.held, D.passes h.1) → D.good v.store
  writes : ∀ u ∈ x.writes, D.safe u

variable {fin : β → Prop}

/-- A call that ends as `fin` asks ends in a good state: by `Through` it holds a lock behind the
gate then, and whoever does still has the state it saw. -/
theorem Kept.good (h : Kept D fin x v) {b : β} (hp : x.prog = .pure b) (hb : fin b) :
    D.good v.store := by
  obtain ⟨G, hthrough, -⟩ := h.through
  rw [hp] at hthrough
  exact h.held (hthrough hb)

/-- A call that starts holds no lock behind the gate, and has seen nothing. -/
theorem Kept.start {c : γ} {p : Prog σ ω ρ μ β β} {L : List (ρ × μ)}
    (hp : D.Through (fun _ H b => fin b → H) p False False) (hL : ∀ h ∈ L, ¬ D.passes h.1) :
    Kept D fin ⟨c, p, L, []⟩ v where
  through := by
    have hnone : (∃ h ∈ L, D.passes h.1) = False :=
      propext ⟨fun ⟨h, hmem, hpass⟩ => hL h hmem hpass, False.elim⟩
    exact ⟨False, by rwa [hnone], False.elim⟩
  held := fun ⟨h, hmem, hpass⟩ => absurd hpass (hL h hmem)
  writes _ hu := absurd hu List.not_mem_nil

/-- The call's own actions. A read shows the committed state with the call's own writes on top,
which are safe, so a good view is a good state; and a lock behind the gate is taken on what the
read just before it saw. -/
theorem Kept.acts (hsafe : ∀ ws s, (∀ u ∈ ws, D.safe u) → D.good (E.view ws s) → D.good s)
    (h : Kept D fin x v) (ha : x.Acts E v.store x') : Kept D fin x' v := by
  obtain ⟨G, hthrough, hG⟩ := h.through
  cases ha with
  | read hp =>
      rw [hp] at hthrough
      exact ⟨⟨_, hthrough _, fun hgood _ => hsafe _ _ h.writes hgood⟩, h.held, h.writes⟩
  | @lock r m k hp =>
      rw [hp] at hthrough
      obtain ⟨hpass, hrest⟩ := hthrough
      have heq : (∃ h ∈ (r, m) :: x.held, D.passes h.1)
          = ((∃ h ∈ x.held, D.passes h.1) ∨ D.passes r) := by
        rw [List.exists_mem_cons_iff, or_comm]
      refine ⟨⟨_, heq ▸ hrest _, fun hgood _ => hsafe _ _ h.writes hgood⟩, ?_, h.writes⟩
      rw [heq]
      -- The lock that is behind the gate was held already, or is taken on what was just read.
      rintro (hheld | hr)
      · exact h.held hheld
      · obtain hheld | hsaw := hpass hr
        · exact h.held hheld
        · exact hG hsaw ⟨r, m, k, hp, hr⟩
  | write hp =>
      rw [hp] at hthrough
      refine ⟨⟨_, hthrough.2, False.elim⟩, h.held, ?_⟩
      intro u hu
      obtain hu | hu := List.mem_append.mp hu
      · exact h.writes u hu
      · cases List.mem_singleton.mp hu
        exact hthrough.1
  | restart hp =>
      rw [hp] at hthrough
      -- A new transaction has seen nothing, holds nothing and has written nothing.
      have hrest : D.Through (fun _ H b => fin b → H) _ False False := hthrough
      have hnone : (∃ h ∈ ([] : List (ρ × μ)), D.passes h.1) = False := by simp
      exact ⟨⟨False, by rwa [hnone], False.elim⟩, by simp, by simp⟩

/-- Another call ends, and does not make the state bad when this one has passed. This is all that
is asked of the company, and it is asked for nothing else: a call that has not passed yet will look
again. -/
theorem Kept.other {v' : World σ ω ρ μ γ β} (h : Kept D fin x v)
    (hstay : D.Passed x → D.good v.store → D.good v'.store) : Kept D fin x v' := by
  obtain ⟨G, hthrough, hG⟩ := h.through
  exact ⟨⟨G, hthrough, fun hsaw hwait => hstay (.inl hwait) (hG hsaw hwait)⟩,
    fun hheld => hstay (.inr hheld) (h.held hheld), h.writes⟩

end Gate

end Txn
