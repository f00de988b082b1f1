/-
Transaction programs: what one call does between taking its connection and
answering, cut at every point where another transaction may act.

A program reads (`read` hands the rest of the program the state one statement
sees), waits for a lock and then sees the newest state (`lock`), records a write
of its own (`write`, invisible to others until the commit), rolls back and begins
again (`restart`), and ends by returning a value (which commits) or by throwing
(which drops the transaction and so rolls it back). Nothing here says what the
state, the writes, the lockable things or the lock modes are.

The type is a free monad, so a program text is a `do` block.
-/
import Mathlib.Logic.Function.Basic

set_option autoImplicit false

namespace Txn

/-- A program over states `σ`, writes `ω`, lockable things `ρ` and modes `μ`, with
errors `ε` and result `α`. -/
inductive Prog (σ ω ρ μ ε : Type) (α : Type) : Type where
  | pure (a : α)
  | throw (e : ε)
  | read (k : σ → Prog σ ω ρ μ ε α)
  | lock (r : ρ) (m : μ) (k : σ → Prog σ ω ρ μ ε α)
  | write (u : ω) (k : Prog σ ω ρ μ ε α)
  | restart (k : Prog σ ω ρ μ ε α)

namespace Prog

variable {σ ω ρ μ ε ε' α β : Type}

/-- Run `p`, then `f` on its result; an error of `p` is final. -/
protected def bind : Prog σ ω ρ μ ε α → (α → Prog σ ω ρ μ ε β) → Prog σ ω ρ μ ε β
  | .pure a, f => f a
  | .throw e, _ => .throw e
  | .read k, f => .read fun s => (k s).bind f
  | .lock r m k, f => .lock r m fun s => (k s).bind f
  | .write u k, f => .write u (k.bind f)
  | .restart k, f => .restart (k.bind f)

instance : Monad (Prog σ ω ρ μ ε) where
  pure := .pure
  bind := Prog.bind

/-- Translate the errors of `p`: the source's `map_err`. -/
def mapError (g : ε → ε') : Prog σ ω ρ μ ε α → Prog σ ω ρ μ ε' α
  | .pure a => .pure a
  | .throw e => .throw (g e)
  | .read k => .read fun s => (k s).mapError g
  | .lock r m k => .lock r m fun s => (k s).mapError g
  | .write u k => .write u (k.mapError g)
  | .restart k => .restart (k.mapError g)

/-- The answer of a whole call: both ways of ending become one reply type. -/
def answer (g : Except ε α → β) : Prog σ ω ρ μ ε α → Prog σ ω ρ μ β β
  | .pure a => .pure (g (.ok a))
  | .throw e => .throw (g (.error e))
  | .read k => .read fun s => (k s).answer g
  | .lock r m k => .lock r m fun s => (k s).answer g
  | .write u k => .write u (k.answer g)
  | .restart k => .restart (k.answer g)

section Bind

variable (f : α → Prog σ ω ρ μ ε β)

@[simp] theorem pure_bind (a : α) : (Pure.pure a : Prog σ ω ρ μ ε α) >>= f = f a := rfl
@[simp] theorem pure'_bind (a : α) : (Prog.pure a : Prog σ ω ρ μ ε α) >>= f = f a := rfl
@[simp] theorem throw_bind (e : ε) : (Prog.throw e : Prog σ ω ρ μ ε α) >>= f = .throw e := rfl
@[simp] theorem read_bind (k : σ → Prog σ ω ρ μ ε α) :
    Prog.read k >>= f = .read fun s => k s >>= f := rfl
@[simp] theorem lock_bind (r : ρ) (m : μ) (k : σ → Prog σ ω ρ μ ε α) :
    Prog.lock r m k >>= f = .lock r m fun s => k s >>= f := rfl
@[simp] theorem write_bind (u : ω) (k : Prog σ ω ρ μ ε α) :
    Prog.write u k >>= f = .write u (k >>= f) := rfl
@[simp] theorem restart_bind (k : Prog σ ω ρ μ ε α) :
    Prog.restart k >>= f = .restart (k >>= f) := rfl

end Bind

/-! ## One transaction alone

`exec` runs a program with no other transaction around: every lock is granted at
once and every read sees the committed state with the program's own writes. -/

/-- The state a transaction sees: the committed one with its own writes on top. -/
def overlay (apply : ω → σ → σ) (ws : List ω) (s : σ) : σ := ws.foldl (fun t u => apply u t) s

@[simp] theorem overlay_nil (apply : ω → σ → σ) (s : σ) : overlay apply [] s = s := rfl

/-- Writes one after the other lie on one another. -/
theorem overlay_append (apply : ω → σ → σ) (ws vs : List ω) (s : σ) :
    overlay apply (ws ++ vs) s = overlay apply vs (overlay apply ws s) :=
  List.foldl_append

@[simp] theorem overlay_cons (apply : ω → σ → σ) (u : ω) (ws : List ω) (s : σ) :
    overlay apply (u :: ws) s = overlay apply ws (apply u s) := rfl

/-- Run alone from state `s` with the own writes `ws` so far: the answer and the
state left behind. -/
def exec (apply : ω → σ → σ) : Prog σ ω ρ μ ε α → List ω → σ → Except ε α × σ
  | .pure a, ws, s => (.ok a, overlay apply ws s)
  | .throw e, _, s => (.error e, s)
  | .read k, ws, s => (k (overlay apply ws s)).exec apply ws s
  | .lock _ _ k, ws, s => (k (overlay apply ws s)).exec apply ws s
  | .write u k, ws, s => k.exec apply (ws ++ [u]) s
  | .restart k, _, s => k.exec apply [] s

end Prog

end Txn
