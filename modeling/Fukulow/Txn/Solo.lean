/-
A transaction program with nobody around.

`exec` of `Program` carries a list of writes, which is what a commit applies; a proof about
a call that runs alone wants the state the call sees instead. `eval` is that: a function
from the state a program sees to its answer and the state it then sees, and `Solo` is a
property of both ways of ending, with a rule for each way of putting programs together.
`exec_eq` says that the two runs agree, `Rules.wp_solo` that whatever is proved of a
program in any company holds of it alone, and
`Engine.Quiet.serves` that a system with nothing in flight takes exactly this step when it
is given one call to serve.
-/
import Fukulow.Txn.RelyGuarantee

set_option autoImplicit false

namespace Txn

variable {σ ω ρ μ γ ε ε' α β : Type}

namespace Prog

variable (apply : ω → σ → σ)

/-- Run alone, from committed state `s₀`, seeing `s`: the answer, and what is seen then. -/
def eval (s₀ : σ) : Prog σ ω ρ μ ε α → σ → Except ε (α × σ)
  | .pure a, s => .ok (a, s)
  | .throw e, _ => .error e
  | .read k, s => (k s).eval s₀ s
  | .lock _ _ k, s => (k s).eval s₀ s
  | .write u k, s => k.eval s₀ (apply u s)
  | .restart k, _ => k.eval s₀ s₀

variable {apply} {s₀ s : σ}

@[simp] theorem eval_pure (a : α) :
    (Pure.pure a : Prog σ ω ρ μ ε α).eval apply s₀ s = .ok (a, s) := rfl

@[simp] theorem eval_pure' (a : α) :
    (Prog.pure a : Prog σ ω ρ μ ε α).eval apply s₀ s = .ok (a, s) := rfl

@[simp] theorem eval_throw (e : ε) :
    (Prog.throw e : Prog σ ω ρ μ ε α).eval apply s₀ s = .error e := rfl

@[simp] theorem eval_restart (p : Prog σ ω ρ μ ε α) :
    (Prog.restart p).eval apply s₀ s = p.eval apply s₀ s₀ := rfl

/-- The second program starts with the answer of the first, and sees what it left. The committed
state `s₀` is the same for both: it is what a `restart` in either of them goes back to. -/
theorem eval_bind (p : Prog σ ω ρ μ ε α) (f : α → Prog σ ω ρ μ ε β) :
    (p >>= f).eval apply s₀ s = p.eval apply s₀ s >>= fun r => (f r.1).eval apply s₀ r.2 := by
  induction p generalizing s with
  | pure a => rfl
  | throw e => rfl
  | read k ih => exact ih s
  | lock r m k ih => exact ih s
  | write u k ih => exact ih
  | restart k ih => exact ih

/-- Translating errors changes nothing of what is seen: the `?` operator is free. -/
theorem eval_mapError (g : ε → ε') (p : Prog σ ω ρ μ ε α) :
    (p.mapError g).eval apply s₀ s = (p.eval apply s₀ s).mapError g := by
  induction p generalizing s with
  | pure a => rfl
  | throw e => rfl
  | read k ih => exact ih s
  | lock r m k ih => exact ih s
  | write u k ih => exact ih
  | restart k ih => exact ih

/-- Turning results and errors into replies keeps the state a result leaves; an error leaves none.
-/
theorem eval_answer (g : Except ε α → β) (p : Prog σ ω ρ μ ε α) :
    (p.answer g).eval apply s₀ s = match p.eval apply s₀ s with
      | .ok (a, t) => .ok (g (.ok a), t)
      | .error e => .error (g (.error e)) := by
  induction p generalizing s with
  | pure a => rfl
  | throw e => rfl
  | read k ih => exact ih s
  | lock r m k ih => exact ih s
  | write u k ih => exact ih
  | restart k ih => exact ih

/-- `exec` answers what `eval` answers, and leaves what it sees at its end; an error leaves the
committed state. By induction on the program, where the list of writes is carried along and only
its overlay is compared. -/
theorem exec_eq (p : Prog σ ω ρ μ ε α) (ws : List ω) :
    p.exec apply ws s₀ = match p.eval apply s₀ (overlay apply ws s₀) with
      | .ok (a, t) => (.ok a, t)
      | .error e => (.error e, s₀) := by
  induction p generalizing ws with
  | pure a => rfl
  | throw e => rfl
  | read k ih => exact ih _ ws
  | lock r m k ih => exact ih _ ws
  | write u k ih =>
      have h := ih (ws ++ [u])
      rwa [overlay_append] at h
  | restart k ih => exact ih []

/-! ## What a program does alone

`Solo` states a property of both ways of ending. The rules are equivalences, so that a
goal about a program turns into one about its statements, step by step. -/

variable (apply) in
/-- Run alone, from committed state `s₀`, seeing `s`, the program returns as `Q` says or
throws as `F` says. -/
def Solo (s₀ : σ) (Q : α → σ → Prop) (F : ε → Prop) (p : Prog σ ω ρ μ ε α) (s : σ) : Prop :=
  match p.eval apply s₀ s with
  | .ok (a, t) => Q a t
  | .error e => F e

section Solo

variable {Q : α → σ → Prop} {F : ε → Prop} {p : Prog σ ω ρ μ ε α}

@[simp] theorem solo_pure {a : α} :
    Solo apply s₀ Q F (Pure.pure a : Prog σ ω ρ μ ε α) s ↔ Q a s := Iff.rfl

@[simp] theorem solo_pure' {a : α} :
    Solo apply s₀ Q F (Prog.pure a : Prog σ ω ρ μ ε α) s ↔ Q a s := Iff.rfl

@[simp] theorem solo_throw {e : ε} :
    Solo apply s₀ Q F (Prog.throw e : Prog σ ω ρ μ ε α) s ↔ F e := Iff.rfl

@[simp] theorem solo_restart : Solo apply s₀ Q F (Prog.restart p) s ↔ Solo apply s₀ Q F p s₀ :=
  Iff.rfl

/-- What is shown of the first program is where the second one starts. It is an equivalence, so
nothing is lost by going through a program statement by statement. -/
@[simp] theorem solo_bind {Q : β → σ → Prop} {f : α → Prog σ ω ρ μ ε β} :
    Solo apply s₀ Q F (p >>= f) s ↔
      Solo apply s₀ (fun a t => Solo apply s₀ Q F (f a) t) F p s := by
  simp only [Solo, eval_bind]
  cases p.eval apply s₀ s <;> rfl

theorem solo_mapError {F : ε' → Prop} {g : ε → ε'} :
    Solo apply s₀ Q F (p.mapError g) s ↔ Solo apply s₀ Q (fun e => F (g e)) p s := by
  simp only [Solo, eval_mapError]
  cases p.eval apply s₀ s <;> rfl

theorem solo_answer {Q : β → σ → Prop} {F : β → Prop} {g : Except ε α → β} :
    Solo apply s₀ Q F (p.answer g) s ↔
      Solo apply s₀ (fun a t => Q (g (.ok a)) t) (fun e => F (g (.error e))) p s := by
  simp only [Solo, eval_answer]
  cases p.eval apply s₀ s <;> rfl

/-- A weaker property of either ending. -/
theorem solo_mono {Q' : α → σ → Prop} {F' : ε → Prop} (h : Solo apply s₀ Q F p s)
    (hQ : ∀ a t, Q a t → Q' a t) (hF : ∀ e, F e → F' e) : Solo apply s₀ Q' F' p s := by
  simp only [Solo] at h ⊢
  split at h
  · exact hQ _ _ h
  · exact hF _ h

/-- The loop rule: what holds of the rounds done, from none to all. `I` speaks of the list of
these, so that a loop over a list of rows can say which of them it has come to. -/
theorem solo_forM {τ : Type} {xs : List τ} {f : τ → Prog σ ω ρ μ ε PUnit} {F : ε → Prop}
    (I : List τ → σ → Prop) (hinit : I [] s)
    (hstep : ∀ done x rest, xs = done ++ x :: rest → ∀ s, I done s →
      Solo apply s₀ (fun _ t => I (done ++ [x]) t) F (f x) s) :
    Solo apply s₀ (fun _ t => I xs t) F (xs.forM f) s := by
  -- The loop has done `done` and still has to do `rest`; induction on `rest`.
  suffices h : ∀ rest done, xs = done ++ rest → ∀ s, I done s →
      Solo apply s₀ (fun _ t => I xs t) F (rest.forM f) s from h xs [] rfl s hinit
  intro rest
  induction rest with
  | nil =>
      intro done hxs s hI
      have hdone : xs = done := by simpa using hxs
      exact hdone ▸ hI
  | cons x rest ih =>
      intro done hxs s hI
      change Solo apply s₀ _ F (f x >>= fun _ => rest.forM f) s
      rw [solo_bind]
      refine solo_mono (hstep done x rest hxs s hI) ?_ fun _ he => he
      intro _ t hI'
      exact ih (done ++ [x]) (by simp [hxs]) t hI'

/-- What `Solo` says of a whole run: with a result the state is what the program saw last, and an
error leaves the state as it was. -/
theorem Solo.exec {p : Prog σ ω ρ μ ε α} (h : Solo apply s₀ Q F p s₀) :
    match p.exec apply [] s₀ with
    | (.ok a, t) => Q a t
    | (.error e, t) => F e ∧ t = s₀ := by
  simp only [Solo] at h
  rw [exec_eq, overlay_nil]
  split at h
  · exact h
  · exact ⟨h, rfl⟩

end Solo

end Prog

/-! ## What holds in any company holds alone -/

section Rules

variable {E : Engine σ ω ρ μ γ β} {R : Rules E}
variable {Q : List (ρ × μ) → List ω → α → World σ ω ρ μ γ β → Prop}
variable {F : List (ρ × μ) → ε → World σ ω ρ μ γ β → Prop}

/-- Alone, a program ends where its weakest precondition says, in the world it began in. The
company that `wp` allows for may be nobody, so each walk through a program made for interleavings
can be used for sequential results as well. -/
theorem Rules.wp_solo {p : Prog σ ω ρ μ ε α} {L : List (ρ × μ)} {ws : List ω}
    {w : World σ ω ρ μ γ β} (hv : R.valid w) (h : R.wp Q F p L ws w) :
    p.Solo E.apply w.store (fun a t => ∃ L' ws', Q L' ws' a w ∧ t = E.view ws' w.store)
      (fun e => ∃ L', F L' e w) (E.view ws w.store) := by
  induction p generalizing L ws with
  | pure a => exact ⟨L, ws, h, rfl⟩
  | throw e => exact ⟨L, h⟩
  | read k ih => exact ih _ (h w .refl hv)
  | lock r m k ih => exact ih _ (h w .refl hv)
  | write u k ih =>
      have hk := @ih L (ws ++ [u]) h
      rwa [Engine.view, Prog.overlay_append] at hk
  | restart k ih => exact @ih [] [] h

end Rules

/-! ## The engine, with one call to serve -/

namespace Engine

variable [DecidableEq ρ] (E : Engine σ ω ρ μ γ β)

/-- Nothing is in flight. -/
def Quiet (s : System σ ω ρ μ γ β) : Prop := ∀ t, s.tasks.get t = none

variable {E}

omit [DecidableEq ρ] in
theorem Alone.put {s : System σ ω ρ μ γ β} (hs : Alone s) (x : Task σ ω ρ μ γ β) :
    Alone { s with tasks := s.tasks.put 0 (some x) } :=
  fun t ht => (Store.get_put_of_ne ht).trans (hs t ht)

omit [DecidableEq ρ] in
/-- When the only call ends, nothing is in flight. -/
theorem Alone.finishTask {s : System σ ω ρ μ γ β} (hs : Alone s) (x : Task σ ω ρ μ γ β)
    (o : Outcome ω β) : Quiet (E.finishTask s 0 x o) := by
  intro t
  by_cases ht : t = 0
  · subst ht
    exact Store.get_put_self _ _ _
  · exact (Store.get_put_of_ne ht).trans (hs t ht)

/-- With nobody else around, every lock is free: a call that is alone never waits. -/
theorem Alone.free {s : System σ ω ρ μ γ β} (hs : Alone s) (r : ρ) (m : μ) :
    E.free s 0 r m = true := by
  refine free_iff.mpr ?_
  intro t x hne hx
  cases (hs t hne).symm.trans hx

theorem Step.of_advance {s s' : System σ ω ρ μ γ β} {t : ℕ} {x : Task σ ω ρ μ γ β}
    (hx : s.tasks.get t = some x) (h : E.advance s t x = some s') : E.Step s s' :=
  ⟨.advance t, by simp only [move, hx, Option.bind_some, h]⟩

/-- An ending is what `eval` says of the program, run on the committed state `s`. -/
def Ending (E : Engine σ ω ρ μ γ β) (s : σ) (o : Outcome ω β) : Except β (β × σ) → Prop
  | .ok (b, t) => ∃ ws, o = .committed ws b ∧ t = E.view ws s
  | .error b => o = .failed b

/-- A call that is alone in the system runs to its end, and ends as `eval` says. By induction on
its program: each action is one move, after which the call is alone with the rest of it. -/
theorem Alone.settles {s : System σ ω ρ μ γ β} (hs : Alone s) {c : γ} {p : Prog σ ω ρ μ β β}
    {L : List (ρ × μ)} {ws : List ω} (hx : s.tasks.get 0 = some ⟨c, p, L, ws⟩) :
    ∃ L' o s', E.Steps s s' ∧ Quiet s' ∧ s'.world = E.finish c L' o s.world
      ∧ E.Ending s.world.store o (p.eval E.apply s.world.store (E.view ws s.world.store)) := by
  -- One move takes the first action; the induction hypothesis is about the rest.
  induction p generalizing s L ws with
  | pure b => exact ⟨L, _, _, .single (.of_advance hx rfl), hs.finishTask _ _, rfl, ws, rfl, rfl⟩
  | throw b => exact ⟨L, _, _, .single (.of_advance hx rfl), hs.finishTask _ _, rfl, rfl⟩
  | read k ih =>
      obtain ⟨L', o, s', hsteps, hquiet, hworld, hend⟩ :=
        ih _ (hs.put _) (Store.get_put_self _ _ _)
      exact ⟨L', o, s', .head (.of_advance hx rfl) hsteps, hquiet, hworld, hend⟩
  | lock r m k ih =>
      obtain ⟨L', o, s', hsteps, hquiet, hworld, hend⟩ :=
        ih _ (hs.put ⟨c, _, (r, m) :: L, ws⟩) (Store.get_put_self _ _ _)
      refine ⟨L', o, s', .head (.of_advance hx ?_) hsteps, hquiet, hworld, hend⟩
      simp only [advance, hs.free, if_true]
  | write u k ih =>
      obtain ⟨L', o, s', hsteps, hquiet, hworld, hend⟩ :=
        ih (hs.put _) (Store.get_put_self _ _ _)
      refine ⟨L', o, s', .head (.of_advance hx rfl) hsteps, hquiet, hworld, ?_⟩
      rwa [view, Prog.overlay_append] at hend
  | restart k ih =>
      obtain ⟨L', o, s', hsteps, hquiet, hworld, hend⟩ :=
        ih (hs.put _) (Store.get_put_self _ _ _)
      exact ⟨L', o, s', .head (.of_advance hx rfl) hsteps, hquiet, hworld, hend⟩

/-- **One call to serve.** A quiet system serves a call in some moves, and ends it as `eval` says.
This is what ties a sequential result to reachable states: after it the system is quiet again, for
the next call. -/
theorem Quiet.serves {s : System σ ω ρ μ γ β} (hs : Quiet s) {c : γ}
    (hmay : E.mayStart s.world c = true) :
    ∃ L o s', E.Steps s s' ∧ Quiet s' ∧ s'.world = E.finish c L o s.world
      ∧ E.Ending s.world.store o ((E.body c).eval E.apply s.world.store s.world.store) := by
  have halone : Alone s := fun t _ => hs t
  have hstart : E.Step s
      { s with tasks := s.tasks.put 0 (some ⟨c, E.body c, E.claims c, []⟩) } := by
    refine ⟨.start 0 c, ?_⟩
    simp [move, hs 0, hmay, halone.free]
  obtain ⟨L, o, s', hsteps, hquiet, hworld, hend⟩ :=
    (halone.put _).settles (E := E) (Store.get_put_self _ _ _)
  exact ⟨L, o, s', .head hstart hsteps, hquiet, hworld, hend⟩

end Engine

end Txn
