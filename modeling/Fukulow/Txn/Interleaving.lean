/-
Any number of transaction programs running at once.

A `System` is the committed state, the history of finished calls and the calls
in flight, each with the rest of its program, the locks it holds and the writes
it has made so far. One `Move` starts a call, lets one call take its next action,
or aborts one. A read or a granted lock sees the committed state of that moment
with the call's own writes on top; a commit applies the writes to the committed
state of that moment; locks are held until the call ends. A call that fails or is
aborted leaves the committed state alone.

Moves are a function, so a schedule can be run; `Step` and `Reachable` are what
proofs use. The history records every finished call together with the committed
state it finished in, so the committed states of a run are all in its last state.
-/
import Fukulow.Txn.Store
import Fukulow.Txn.Program
import Mathlib.Logic.Relation

set_option autoImplicit false

namespace Txn

/-- How a call ended: it committed some writes and answered, it answered with an
error and rolled back, or it was aborted. -/
inductive Outcome (ω β : Type) where
  | committed (writes : List ω) (reply : β)
  | failed (reply : β)
  | aborted

/-- The writes that an ending adds to the committed state. -/
def Outcome.writes {ω β : Type} : Outcome ω β → List ω
  | committed ws _ => ws
  | failed _ | aborted => []

/-- A finished call: what it was, the locks it held at its end, how it ended, and
the committed state it ended in (for a commit, the state just before it). -/
structure Entry (σ ω ρ μ γ β : Type) where
  call : γ
  held : List (ρ × μ)
  outcome : Outcome ω β
  before : σ

/-- The committed state and the history of finished calls. -/
structure World (σ ω ρ μ γ β : Type) where
  store : σ
  history : List (Entry σ ω ρ μ γ β)

/-- Every committed state so far, the current one last. -/
def World.states {σ ω ρ μ γ β : Type} (w : World σ ω ρ μ γ β) : List σ :=
  w.history.map Entry.before ++ [w.store]

/-- What a transaction system is made of: how a write changes a state, which lock
modes exclude each other, the program of each call, what a call holds from its
start, and when a call may start. -/
structure Engine (σ ω ρ μ γ β : Type) where
  apply : ω → σ → σ
  conflict : μ → μ → Bool
  conflict_comm : ∀ m m', conflict m m' = conflict m' m
  body : γ → Prog σ ω ρ μ β β
  claims : γ → List (ρ × μ)
  mayStart : World σ ω ρ μ γ β → γ → Bool

/-- A call in flight. -/
structure Task (σ ω ρ μ γ β : Type) where
  call : γ
  prog : Prog σ ω ρ μ β β
  held : List (ρ × μ)
  writes : List ω

/-- The whole system. -/
structure System (σ ω ρ μ γ β : Type) where
  world : World σ ω ρ μ γ β
  tasks : Store ℕ fun _ => Task σ ω ρ μ γ β

/-- What the scheduler does next. -/
inductive Move (γ : Type) where
  | start (t : ℕ) (c : γ)
  | advance (t : ℕ)
  | abort (t : ℕ)

namespace Engine

variable {σ ω ρ μ γ β : Type} [DecidableEq ρ] (E : Engine σ ω ρ μ γ β)

/-- The committed state with a transaction's own writes on top. -/
abbrev view (ws : List ω) (s : σ) : σ := Prog.overlay E.apply ws s

/-- The state after a call ended this way in state `s`. -/
def after (o : Outcome ω β) (s : σ) : σ :=
  match o with
  | .committed ws _ => E.view ws s
  | .failed _ | .aborted => s

omit [DecidableEq ρ] in
/-- An ending leaves the state with its writes on top, whichever ending it is: one that is no
commit has none. -/
theorem after_eq_view (o : Outcome ω β) (s : σ) : E.after o s = E.view o.writes s := by
  cases o <;> rfl

/-- The world after call `c`, holding `L`, ended this way. -/
def finish (c : γ) (L : List (ρ × μ)) (o : Outcome ω β) (w : World σ ω ρ μ γ β) :
    World σ ω ρ μ γ β where
  store := E.after o w.store
  history := w.history ++ [⟨c, L, o, w.store⟩]

omit [DecidableEq ρ] in
/-- The states on record are only added to. What is said of an earlier state can be said again
later by its place in the list. -/
theorem states_finish (c : γ) (L : List (ρ × μ)) (o : Outcome ω β) (w : World σ ω ρ μ γ β) :
    w.states <+: (E.finish c L o w).states := by
  simp [World.states, finish]

omit [DecidableEq ρ] in
/-- The states on record after an ending: the ones before it, and the one it leaves. -/
theorem mem_states_finish {c : γ} {L : List (ρ × μ)} {o : Outcome ω β} {w : World σ ω ρ μ γ β}
    {s : σ} (h : s ∈ (E.finish c L o w).states) : s ∈ w.states ∨ s = (E.finish c L o w).store := by
  simpa only [World.states, finish, List.map_append, List.map_cons, List.map_nil, List.mem_append,
    List.mem_singleton] using h

/-- Does no call other than `t` hold `r` in a mode that excludes `m`? -/
def free (s : System σ ω ρ μ γ β) (t : ℕ) (r : ρ) (m : μ) : Bool :=
  s.tasks.keys.all fun t' => t' == t ||
    match s.tasks.get t' with
    | none => true
    | some x => x.held.all fun h => !(h.1 == r && E.conflict m h.2)

/-- Call `t` ends. -/
def finishTask (s : System σ ω ρ μ γ β) (t : ℕ) (x : Task σ ω ρ μ γ β) (o : Outcome ω β) :
    System σ ω ρ μ γ β where
  world := E.finish x.call x.held o s.world
  tasks := s.tasks.put t none

/-- The next action of a call; `none` when it has to wait. -/
def advance (s : System σ ω ρ μ γ β) (t : ℕ) (x : Task σ ω ρ μ γ β) :
    Option (System σ ω ρ μ γ β) :=
  match x.prog with
  | .pure b => some (E.finishTask s t x (.committed x.writes b))
  | .throw e => some (E.finishTask s t x (.failed e))
  | .read k =>
      let x' := { x with prog := k (E.view x.writes s.world.store) }
      some { s with tasks := s.tasks.put t (some x') }
  | .lock r m k =>
      if E.free s t r m then
        let x' := { x with prog := k (E.view x.writes s.world.store), held := (r, m) :: x.held }
        some { s with tasks := s.tasks.put t (some x') }
      else none
  | .write u k =>
      let x' := { x with prog := k, writes := x.writes ++ [u] }
      some { s with tasks := s.tasks.put t (some x') }
  | .restart k =>
      let x' := { x with prog := k, held := [], writes := [] }
      some { s with tasks := s.tasks.put t (some x') }

/-- One move of the scheduler, `none` where it is not possible. -/
def move (s : System σ ω ρ μ γ β) : Move γ → Option (System σ ω ρ μ γ β)
  | .start t c =>
      if (s.tasks.get t).isNone && E.mayStart s.world c
          && (E.claims c).all fun h => E.free s t h.1 h.2 then
        some { s with tasks := s.tasks.put t (some ⟨c, E.body c, E.claims c, []⟩) }
      else none
  | .advance t => (s.tasks.get t).bind (E.advance s t)
  | .abort t => (s.tasks.get t).map fun x => E.finishTask s t x .aborted

/-- Run a schedule. -/
def run (s : System σ ω ρ μ γ β) : List (Move γ) → Option (System σ ω ρ μ γ β)
  | [] => some s
  | m :: ms => (E.move s m).bind fun s' => run s' ms

/-- One step of the system. -/
def Step (s s' : System σ ω ρ μ γ β) : Prop := ∃ m, E.move s m = some s'

/-- Any number of steps. -/
abbrev Steps : System σ ω ρ μ γ β → System σ ω ρ μ γ β → Prop := Relation.ReflTransGen E.Step

/-- The system with committed state `w` and nothing in flight. -/
def idle (w : World σ ω ρ μ γ β) : System σ ω ρ μ γ β := ⟨w, Store.empty⟩

/-- Reachable by any interleaving of any number of calls. -/
def Reachable (w : World σ ω ρ μ γ β) (s : System σ ω ρ μ γ β) : Prop := E.Steps (idle w) s

/-- Reachable by an interleaving every step of which starts in a system where `P` holds. -/
def ReachableIn (P : System σ ω ρ μ γ β → Prop) (w : World σ ω ρ μ γ β)
    (s : System σ ω ρ μ γ β) : Prop :=
  Relation.ReflTransGen (fun s s' => P s ∧ E.Step s s') (idle w) s

/-- Runs whose every step starts where `P` holds are all runs, when `P` holds everywhere: the way
from results under a condition to results without one. -/
theorem Reachable.within {P : System σ ω ρ μ γ β → Prop} (hP : ∀ s, P s)
    {w : World σ ω ρ μ γ β} {s : System σ ω ρ μ γ β} (h : E.Reachable w s) :
    E.ReachableIn P w s :=
  Relation.ReflTransGen.mono (fun s _ hs => ⟨hP s, hs⟩) _ _ h

/-- A schedule that can be run leads to a reachable system, so a concrete interleaving is exhibited
by evaluating it. -/
theorem Steps.of_run {s s' : System σ ω ρ μ γ β} {ms : List (Move γ)}
    (h : E.run s ms = some s') : E.Steps s s' := by
  induction ms generalizing s with
  | nil =>
      simp only [run, Option.some.injEq] at h
      exact h ▸ .refl
  | cons m ms ih =>
      simp only [run, Option.bind_eq_some_iff] at h
      obtain ⟨t, ht, hrest⟩ := h
      exact .head ⟨m, ht⟩ (ih hrest)

/-! ## What one step can do -/

variable {E}

/-- **Every step, classified.** A call starts; a call takes one action that leaves the world alone;
or a call ends. Every invariant of the system is proved from these three, and none looks at `move`
again. -/
theorem step_cases {s s' : System σ ω ρ μ γ β} (h : E.Step s s') :
    (∃ t c, s.tasks.get t = none ∧ E.mayStart s.world c = true
        ∧ (∀ a ∈ E.claims c, E.free s t a.1 a.2 = true)
        ∧ s' = { s with tasks := s.tasks.put t (some ⟨c, E.body c, E.claims c, []⟩) })
    ∨ (∃ t x, s.tasks.get t = some x ∧ E.advance s t x = some s')
    ∨ (∃ t x, s.tasks.get t = some x ∧ s' = E.finishTask s t x .aborted) := by
  obtain ⟨m, hm⟩ := h
  cases m with
  | start t c =>
      simp only [move] at hm
      split at hm
      · rename_i hc
        simp only [Bool.and_eq_true, Option.isNone_iff_eq_none, List.all_eq_true] at hc
        simp only [Option.some.injEq] at hm
        exact .inl ⟨t, c, hc.1.1, hc.1.2, hc.2, hm.symm⟩
      · cases hm
  | advance t =>
      simp only [move, Option.bind_eq_some_iff] at hm
      obtain ⟨x, hx, hadv⟩ := hm
      exact .inr (.inl ⟨t, x, hx, hadv⟩)
  | abort t =>
      simp only [move, Option.map_eq_some_iff] at hm
      obtain ⟨x, hx, rfl⟩ := hm
      exact .inr (.inr ⟨t, x, hx, rfl⟩)

/-- A free lock conflicts with no lock another call holds. The function looks through the keys in
use; what proofs need is that it has looked at every call in flight. -/
theorem free_iff {s : System σ ω ρ μ γ β} {t : ℕ} {r : ρ} {m : μ} :
    E.free s t r m = true ↔
      ∀ t' x, t' ≠ t → s.tasks.get t' = some x → ∀ m', (r, m') ∈ x.held → E.conflict m m' = false := by
  simp only [free, List.all_eq_true, Bool.or_eq_true, beq_iff_eq]
  constructor
  · intro h t' x hne hx m' hm'
    have hk : t' ∈ s.tasks.keys := s.tasks.covers t' (by simp [hx])
    have := (h t' hk).resolve_left hne
    simp only [hx, List.all_eq_true] at this
    simpa using this _ hm'
  · intro h t' _
    by_cases hne : t' = t
    · exact .inl hne
    · right
      cases hx : s.tasks.get t' with
      | none => rfl
      | some x =>
          simp only [List.all_eq_true, Bool.not_eq_true', Bool.and_eq_false_iff]
          rintro ⟨r', m'⟩ hmem
          by_cases hr : r' = r
          · exact .inr (h t' x hne hx m' (hr ▸ hmem))
          · exact .inl (by simpa using hr)

/-! ## One call after the other -/

variable (E)

/-- Advance call 0 until it has ended, in at most `fuel` moves. -/
def settle : ℕ → System σ ω ρ μ γ β → Option (System σ ω ρ μ γ β)
  | 0, _ => none
  | fuel + 1, s => (E.move s (.advance 0)).bind fun s' =>
      if (s'.tasks.get 0).isNone then some s' else settle fuel s'

/-- Run calls one after the other. -/
def serve (fuel : ℕ) : List γ → System σ ω ρ μ γ β → Option (System σ ω ρ μ γ β)
  | [], s => some s
  | c :: cs, s => (E.move s (.start 0 c)).bind fun s' =>
      (E.settle fuel s').bind (serve fuel cs)

/-- No call but call 0 is in flight. -/
def Alone (s : System σ ω ρ μ γ β) : Prop := ∀ t, t ≠ 0 → s.tasks.get t = none

variable {E}

/-- Advancing a call leaves the other calls alone: their programs, locks and writes are their own,
and what they share is the committed state. -/
theorem advance_frame {s s' : System σ ω ρ μ γ β} {t t' : ℕ} {x : Task σ ω ρ μ γ β}
    (h : E.advance s t x = some s') (hne : t' ≠ t) : s'.tasks.get t' = s.tasks.get t' := by
  unfold advance at h
  split at h
  case h_4 =>
    split at h
    · cases h
      exact Store.get_put_of_ne hne
    · cases h
  all_goals
    cases h
    exact Store.get_put_of_ne hne

/-- Whatever call 0 does, no other call comes into flight. -/
theorem Alone.move_advance {s s' : System σ ω ρ μ γ β} (hs : Alone s)
    (h : E.move s (.advance 0) = some s') : Alone s' := by
  simp only [move, Option.bind_eq_some_iff] at h
  obtain ⟨x, -, hadv⟩ := h
  exact fun t ht => (advance_frame hadv ht).trans (hs t ht)

/-- Starting call 0 brings no other call into flight. -/
theorem Alone.move_start {s s' : System σ ω ρ μ γ β} {c : γ} (hs : Alone s)
    (h : E.move s (.start 0 c) = some s') : Alone s' := by
  simp only [move] at h
  split at h
  · cases h
    exact fun t ht => (Store.get_put_of_ne ht).trans (hs t ht)
  · cases h

/-- While call 0 runs to its end it stays alone, by induction on the moves that it may take. -/
theorem Alone.of_settle {fuel : ℕ} {s s' : System σ ω ρ μ γ β} (hs : Alone s)
    (h : E.settle fuel s = some s') :
    Relation.ReflTransGen (fun s s' => Alone s ∧ E.Step s s') s s' ∧ Alone s' := by
  induction fuel generalizing s with
  | zero => cases h
  | succ fuel ih =>
      simp only [settle, Option.bind_eq_some_iff] at h
      obtain ⟨u, hu, hrest⟩ := h
      have halone := hs.move_advance hu
      split at hrest
      · cases hrest
        exact ⟨.single ⟨hs, _, hu⟩, halone⟩
      · obtain ⟨hsteps, hend⟩ := ih halone hrest
        exact ⟨.head ⟨hs, _, hu⟩ hsteps, hend⟩

/-- A sequential run is an interleaving, each step of which is taken with nobody else around. By
induction on the calls, each of which starts from where the one before has settled. -/
theorem Alone.of_serve {fuel : ℕ} {cs : List γ} {s s' : System σ ω ρ μ γ β} (hs : Alone s)
    (h : E.serve fuel cs s = some s') :
    Relation.ReflTransGen (fun s s' => Alone s ∧ E.Step s s') s s' := by
  induction cs generalizing s with
  | nil =>
      simp only [serve, Option.some.injEq] at h
      exact h ▸ .refl
  | cons c cs ih =>
      simp only [serve, Option.bind_eq_some_iff] at h
      obtain ⟨u, hu, v, hv, hrest⟩ := h
      obtain ⟨hsettle, halone⟩ := (hs.move_start hu).of_settle hv
      exact .head ⟨hs, _, hu⟩ (hsettle.trans (ih halone hrest))

/-- A sequential run meets every condition that holds while at most one call is in flight: enough
for conditions that speak of what two calls do to each other. -/
theorem ReachableIn.of_serve {P : System σ ω ρ μ γ β → Prop} (hP : ∀ s, Alone s → P s)
    {fuel : ℕ} {cs : List γ} {w : World σ ω ρ μ γ β} {s : System σ ω ρ μ γ β}
    (h : E.serve fuel cs (idle w) = some s) : E.ReachableIn P w s := by
  have halone : Alone (idle w) := fun _ _ => rfl
  exact Relation.ReflTransGen.mono (fun s _ hs => ⟨hP s hs.1, hs.2⟩) _ _ (halone.of_serve h)

/-- A run under a condition is a run; the condition is dropped step by step. -/
theorem ReachableIn.reachable {P : System σ ω ρ μ γ β → Prop} {w : World σ ω ρ μ γ β}
    {s : System σ ω ρ μ γ β} (h : E.ReachableIn P w s) : E.Reachable w s :=
  Relation.ReflTransGen.mono (fun _ _ hs => hs.2) _ _ h

end Engine

end Txn
