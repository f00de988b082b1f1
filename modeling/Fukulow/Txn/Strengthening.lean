/-
Rules that promise more.

Rules refine others when their worlds are valid for the others, their guarantees imply the
others' and they presume at least the same locks: then less can happen later, and a program
ends within the stronger rules wherever it ended within the weaker ones (`Refines.wp`). So a
further promise about some calls is proved for these calls alone, and joined with what the
weaker rules already give (`wp_and`).

A promise about one error only asks about the places that can raise it; `Raises` bounds the
errors of a program by its text.
-/
import Fukulow.Txn.Runs

set_option autoImplicit false

namespace Txn

variable {σ ω ρ μ γ ε ε' α α' β : Type}

/-! ## The errors of a program -/

namespace Prog

/-- Every error the program can raise satisfies `P`. -/
def Raises (P : ε → Prop) : Prog σ ω ρ μ ε α → Prop
  | .pure _ => True
  | .throw e => P e
  | .read k => ∀ s, (k s).Raises P
  | .lock _ _ k => ∀ s, (k s).Raises P
  | .write _ k => k.Raises P
  | .restart k => k.Raises P

variable {P : ε → Prop}

/-- The errors of a sequence are those of its parts. -/
theorem raises_bind {p : Prog σ ω ρ μ ε α} {f : α → Prog σ ω ρ μ ε α'} (hp : p.Raises P)
    (hf : ∀ a, (f a).Raises P) : (p >>= f).Raises P := by
  induction p with
  | pure a => exact hf a
  | throw e => exact hp
  | read k ih => exact fun s => ih s (hp s)
  | lock r m k ih => exact fun s => ih s (hp s)
  | write u k ih => exact ih hp
  | restart k ih => exact ih hp

/-- After a translation the errors are those that the translation makes. -/
theorem raises_mapError {P : ε' → Prop} {g : ε → ε'} (hg : ∀ e, P (g e))
    (p : Prog σ ω ρ μ ε α) : (p.mapError g).Raises P := by
  induction p with
  | pure a => trivial
  | throw e => exact hg e
  | read k ih => exact fun s => ih s
  | lock r m k ih => exact fun s => ih s
  | write u k ih => exact ih
  | restart k ih => exact ih

theorem raises_forM {τ : Type} {f : τ → Prog σ ω ρ μ ε PUnit} (hf : ∀ x, (f x).Raises P)
    (xs : List τ) : (xs.forM f).Raises P := by
  induction xs with
  | nil => trivial
  | cons x xs ih => exact raises_bind (hf x) fun _ => ih

end Prog

namespace Rules

variable {E : Engine σ ω ρ μ γ β} {R R' : Rules E}
variable {Q Q' : List (ρ × μ) → List ω → α → World σ ω ρ μ γ β → Prop}
variable {F F' : List (ρ × μ) → ε → World σ ω ρ μ γ β → Prop}
variable {L : List (ρ × μ)} {ws : List ω} {w w' : World σ ω ρ μ γ β}

/-- Where results promise nothing, and errors promise what the text's errors satisfy anyway, there
is no program to walk through. -/
theorem wp_of_raises {P : ε → Prop} {p : Prog σ ω ρ μ ε α} (hp : p.Raises P)
    (hQ : ∀ L ws a w, Q L ws a w) (hF : ∀ L e w, P e → F L e w) : R.wp Q F p L ws w := by
  induction p generalizing L ws w with
  | pure a => exact hQ _ _ _ _
  | throw e => exact hF _ _ _ hp
  | read k ih => exact fun w' _ _ => ih _ (hp _)
  | lock r m k ih => exact fun w' _ _ => ih _ (hp _)
  | write u k ih => exact ih hp
  | restart k ih => exact ih hp

/-- Nothing is asked of the ends: true of any program, since a walk cannot get stuck. -/
theorem wp_always {p : Prog σ ω ρ μ ε α} (hQ : ∀ L ws a w, Q L ws a w) (hF : ∀ L e w, F L e w) :
    R.wp Q F p L ws w := by
  induction p generalizing L ws w with
  | pure a => exact hQ _ _ _ _
  | throw e => exact hF _ _ _
  | read k ih => exact fun w' _ _ => ih _
  | lock r m k ih => exact fun w' _ _ => ih _
  | write u k ih => exact ih
  | restart k ih => exact ih

/-- Two facts about the ends of one program, each with its own walk. -/
theorem wp_and {p : Prog σ ω ρ μ ε α} (h : R.wp Q F p L ws w) (h' : R.wp Q' F' p L ws w) :
    R.wp (fun L ws a w => Q L ws a w ∧ Q' L ws a w) (fun L e w => F L e w ∧ F' L e w) p L ws w := by
  induction p generalizing L ws w with
  | pure a => exact ⟨h, h'⟩
  | throw e => exact ⟨h, h'⟩
  | read k ih => exact fun w' hl hv => ih _ (h w' hl hv) (h' w' hl hv)
  | lock r m k ih => exact fun w' hl hv => ih _ (h w' hl hv) (h' w' hl hv)
  | write u k ih => exact ih h h'
  | restart k ih => exact ih h h'

/-- `R'` promises at least what `R` promises. -/
structure Refines (R' R : Rules E) : Prop where
  valid : ∀ w, R'.valid w → R.valid w
  guar : ∀ c L o w, R'.guar c L o w → R.guar c L o w
  presumes : ∀ c, R.presumes c ⊆ R'.presumes c

/-- What comes later under the stronger rules comes later under the weaker ones: fewer endings are
allowed, and each is one that the weaker rules allow. -/
theorem Refines.later (h : R'.Refines R) (hl : R'.Later L w w') : R.Later L w w' := by
  refine Relation.ReflTransGen.mono ?_ _ _ hl
  rintro u v ⟨c, K, o, hg, hc, hu, hv, rfl⟩
  refine ⟨c, K, o, h.guar c K o u hg, ?_, h.valid _ hu, h.valid _ hv, rfl⟩
  intro r m m' hm hm'
  refine hc r m m' hm ?_
  cases o with
  | committed ws b =>
      obtain hp | hk := List.mem_append.mp hm'
      · exact List.mem_append_left _ (h.presumes c hp)
      · exact List.mem_append_right _ hk
  | failed | aborted => exact hm'

/-- A walk under the weaker rules is one under the stronger: with less that others can do, every
read shows what it could show before. -/
theorem Refines.wp (h : R'.Refines R) {p : Prog σ ω ρ μ ε α} (hp : R.wp Q F p L ws w) :
    R'.wp Q F p L ws w := by
  induction p generalizing L ws w with
  | pure a => exact hp
  | throw e => exact hp
  | read k ih => exact fun w' hl hv => ih _ (hp w' (h.later hl) (h.valid _ hv))
  | lock r m k ih => exact fun w' hl hv => ih _ (hp w' (h.later hl) (h.valid _ hv))
  | write u k ih => exact ih hp
  | restart k ih => exact ih hp

theorem Refines.hence (h : R'.Refines R) {P : World σ ω ρ μ γ β → Prop} (hp : R.Hence L P w) :
    R'.Hence L P w :=
  fun v hl hv => hp v (h.later hl) (h.valid _ hv)

end Rules

end Txn
