/-
Runs whose every step starts in a system that meets a condition.

`Engine.step_cases` says what a move does to the whole system; here it is cut along the one
call that moves: a call starts, it takes an action (`Task.Acts`), or it ends (`Task.Ends`).
Two rules follow. `Safe.run` carries an invariant of the world along a run, and gives each
ending the condition and the guarantee it meets. `ReachableIn.in_flight` carries a property
of every call in flight, which has to survive the call's own actions and the endings of the
others: what a call knows without holding a lock for it.
-/
import Fukulow.Txn.RelyGuarantee

set_option autoImplicit false

namespace Txn

variable {σ ω ρ μ γ β : Type}

/-! ## What one call does -/

/-- One action of a call that leaves the committed state `s` alone. -/
inductive Task.Acts (E : Engine σ ω ρ μ γ β) (s : σ) (x : Task σ ω ρ μ γ β) :
    Task σ ω ρ μ γ β → Prop where
  | read {k} : x.prog = .read k → Acts E s x { x with prog := k (E.view x.writes s) }
  | lock {r m k} : x.prog = .lock r m k →
      Acts E s x { x with prog := k (E.view x.writes s), held := (r, m) :: x.held }
  | write {u k} : x.prog = .write u k →
      Acts E s x { x with prog := k, writes := x.writes ++ [u] }
  | restart {k} : x.prog = .restart k → Acts E s x { x with prog := k, held := [], writes := [] }

/-- A way in which a call can end from where it is. -/
inductive Task.Ends (x : Task σ ω ρ μ γ β) : Outcome ω β → Prop where
  | commits {b} : x.prog = .pure b → Ends x (.committed x.writes b)
  | fails {b} : x.prog = .throw b → Ends x (.failed b)
  | aborts : Ends x .aborted

namespace Engine

variable [DecidableEq ρ] {E : Engine σ ω ρ μ γ β} {s s' : System σ ω ρ μ γ β}

/-- **Every step, by the call that moves.** The same three kinds as in `step_cases`, with the
action and the ending named, which is what an invariant of one call has to be checked against. -/
theorem step_of_call (h : E.Step s s') :
    (∃ t c, s.tasks.get t = none ∧ E.mayStart s.world c = true
        ∧ s' = { s with tasks := s.tasks.put t (some ⟨c, E.body c, E.claims c, []⟩) })
    ∨ (∃ t x x', s.tasks.get t = some x ∧ x.Acts E s.world.store x'
        ∧ s' = { s with tasks := s.tasks.put t (some x') })
    ∨ (∃ t x o, s.tasks.get t = some x ∧ x.Ends o ∧ s' = E.finishTask s t x o) := by
  obtain ⟨t, c, hnone, hmay, -, hs'⟩ | ⟨t, x, hx, hadv⟩ | ⟨t, x, hx, hs'⟩ := step_cases h
  · exact .inl ⟨t, c, hnone, hmay, hs'⟩
  · unfold advance at hadv
    split at hadv
    case h_1 b hp =>
      cases hadv
      exact .inr (.inr ⟨t, x, _, hx, .commits hp, rfl⟩)
    case h_2 b hp =>
      cases hadv
      exact .inr (.inr ⟨t, x, _, hx, .fails hp, rfl⟩)
    case h_3 k hp =>
      cases hadv
      exact .inr (.inl ⟨t, x, _, hx, .read hp, rfl⟩)
    case h_4 r m k hp =>
      split at hadv
      · cases hadv
        exact .inr (.inl ⟨t, x, _, hx, .lock hp, rfl⟩)
      · cases hadv
    case h_5 u k hp =>
      cases hadv
      exact .inr (.inl ⟨t, x, _, hx, .write hp, rfl⟩)
    case h_6 k hp =>
      cases hadv
      exact .inr (.inl ⟨t, x, _, hx, .restart hp, rfl⟩)
  · exact .inr (.inr ⟨t, x, _, hx, .aborts, hs'⟩)

/-- **Calls in flight.** A property of a call in flight and the world holds all along a run
when it holds of a call that starts, when the call's own actions keep it, and when every
ending of another call keeps it. -/
theorem ReachableIn.in_flight {P : System σ ω ρ μ γ β → Prop} {w : World σ ω ρ μ γ β}
    {J : Task σ ω ρ μ γ β → World σ ω ρ μ γ β → Prop}
    (hstart : ∀ c v, J ⟨c, E.body c, E.claims c, []⟩ v)
    (hact : ∀ x x' v, J x v → x.Acts E v.store x' → J x' v)
    (hend : ∀ s, P s → E.ReachableIn P w s → ∀ t x o t' y, t' ≠ t → s.tasks.get t = some x →
      x.Ends o → s.tasks.get t' = some y → J y s.world → J y (E.finish x.call x.held o s.world))
    (h : E.ReachableIn P w s) : ∀ t x, s.tasks.get t = some x → J x s.world := by
  induction h with
  | refl => intro t x hx; cases hx
  | @tail s s' hrun hs ih =>
      -- A start and an action change one task and not the world.
      have hput : ∀ t x, J x s.world → ∀ t' y, (s.tasks.put t (some x)).get t' = some y →
          J y s.world := by
        intro t x hJ t' y hy
        by_cases ht : t' = t
        · subst ht
          rw [Store.get_put_self, Option.some.injEq] at hy
          exact hy ▸ hJ
        · rw [Store.get_put_of_ne ht] at hy
          exact ih t' y hy
      obtain ⟨hP, hstep⟩ := hs
      obtain ⟨t, c, -, -, rfl⟩ | ⟨t, x, x', hx, hacts, rfl⟩ | ⟨t, x, o, hx, hends, rfl⟩ :=
        step_of_call hstep
      · exact hput t _ (hstart c s.world)
      · exact hput t x' (hact x x' s.world (ih t x hx) hacts)
      · intro t' y hy
        by_cases ht : t' = t
        · subst ht
          simp [finishTask] at hy
        · simp only [finishTask, Store.get_put_of_ne ht] at hy
          exact hend s hP hrun t x o t' y ht hx hends hy (ih t' y hy)

variable (E)

/-- Run a schedule whose every move starts in a system that passes `check`. -/
def runIf (check : System σ ω ρ μ γ β → Bool) (s : System σ ω ρ μ γ β) :
    List (Move γ) → Option (System σ ω ρ μ γ β)
  | [] => some s
  | m :: ms => if check s then (E.move s m).bind fun s' => runIf check s' ms else none

variable {E}

/-- A schedule whose every move starts in a system that passes the check is a run under the
condition, so a conditional result can be applied to a run that is written down. -/
theorem ReachableIn.of_runIf {P : System σ ω ρ μ γ β → Prop} {check : System σ ω ρ μ γ β → Bool}
    (hcheck : ∀ s, check s = true → P s) {w : World σ ω ρ μ γ β} {ms : List (Move γ)}
    (h : E.runIf check (idle w) ms = some s) : E.ReachableIn P w s := by
  suffices hrun : ∀ s₀, E.ReachableIn P w s₀ → E.runIf check s₀ ms = some s →
      E.ReachableIn P w s from hrun _ .refl h
  clear h
  induction ms with
  | nil =>
      intro s₀ hr h
      cases h
      exact hr
  | cons m ms ih =>
      intro s₀ hr h
      rw [runIf] at h
      split at h
      · rename_i hok
        obtain ⟨s₁, hmove, hrest⟩ := Option.bind_eq_some_iff.mp h
        exact ih s₁ (hr.tail ⟨hcheck s₀ hok, m, hmove⟩) hrest
      · cases h

end Engine

/-! ## Runs of sound rules -/

namespace Rules

variable [DecidableEq ρ] {E : Engine σ ω ρ μ γ β} {R : Rules E} {s : System σ ω ρ μ γ β}

omit [DecidableEq ρ] in
/-- Wherever a call can end, it ends within its guarantee: `Safe` says so of what is left of every
call in flight. -/
theorem Safe.guarantee (hR : R.Sound) (hs : R.Safe s) {t : ℕ} {x : Task σ ω ρ μ γ β}
    {o : Outcome ω β} (hx : s.tasks.get t = some x) (ho : x.Ends o) :
    R.guar x.call x.held o s.world := by
  have hwp := hs.tasks t x hx
  cases ho with
  | commits hp =>
      rw [hp] at hwp
      exact hwp s.world .refl hs.valid
  | fails hp =>
      rw [hp] at hwp
      exact hwp s.world .refl hs.valid
  | aborts => exact hR.aborts _ _ _ hs.valid

/-- **An invariant of the world along a run.** Each ending may use the condition on the
system it starts in, and the guarantee it meets. -/
theorem Sound.invariant (hR : R.Sound) {P : System σ ω ρ μ γ β → Prop}
    (hclear : ∀ s, P s → R.Clear s) {w : World σ ω ρ μ γ β} (hv : R.valid w)
    {I : World σ ω ρ μ γ β → Prop} (hinit : I w)
    (hstep : ∀ s, P s → E.ReachableIn P w s → R.Safe s → ∀ t x o, s.tasks.get t = some x →
      x.Ends o → R.guar x.call x.held o s.world → I s.world →
      I (E.finish x.call x.held o s.world))
    (h : E.ReachableIn P w s) : R.Safe s ∧ I s.world := by
  induction h with
  | refl => exact ⟨.idle hv, hinit⟩
  | @tail s s' hrun hs ih =>
      obtain ⟨hP, hmove⟩ := hs
      obtain ⟨hsafe, hI⟩ := ih
      refine ⟨(hsafe.step hR (hclear s hP) hmove).1, ?_⟩
      obtain ⟨t, c, -, -, rfl⟩ | ⟨t, x, x', -, -, rfl⟩ | ⟨t, x, o, hx, hends, rfl⟩ :=
        Engine.step_of_call hmove
      · exact hI
      · exact hI
      · exact hstep s hP hrun hsafe t x o hx hends (hsafe.guarantee hR hx hends) hI

end Rules

end Txn
