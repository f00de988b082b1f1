/-
Programs that call a transaction system.

A `Client` makes a call, waits for its reply and goes on from there; it ends by returning a
value or by throwing. A reply may be missing: the connection was lost, and the caller does
not learn what the call did. What a client program does is judged over every sequence of
replies, since between two calls anybody else may act: `Does` asks something of each call
and of the end, with the events so far in hand.
-/
import Mathlib.Logic.Function.Basic

set_option autoImplicit false

namespace Txn

/-- A program that makes calls `κ` and gets replies `β`, with errors `ε` and result `α`. -/
inductive Client (κ β ε α : Type) : Type where
  | pure (a : α)
  | throw (e : ε)
  | call (c : κ) (k : Option β → Client κ β ε α)

namespace Client

variable {κ β ε ε' α α' : Type}

/-- Run `p`, then `f` on its result; an error of `p` is final. -/
protected def bind : Client κ β ε α → (α → Client κ β ε α') → Client κ β ε α'
  | .pure a, f => f a
  | .throw e, _ => .throw e
  | .call c k, f => .call c fun b => (k b).bind f

instance : Monad (Client κ β ε) where
  pure := .pure
  bind := Client.bind

/-- A result that is there, or the error that is. -/
def ofExcept : Except ε α → Client κ β ε α
  | .ok a => .pure a
  | .error e => .throw e

/-- Go on from either end: some errors are answered, the others stay errors. -/
def handle (g : ε → Except ε' α) : Client κ β ε α → Client κ β ε' α
  | .pure a => .pure a
  | .throw e => ofExcept (g e)
  | .call c k => .call c fun b => (k b).handle g

section Bind

variable (f : α → Client κ β ε α')

@[simp] theorem pure_bind (a : α) : (Pure.pure a : Client κ β ε α) >>= f = f a := rfl
@[simp] theorem pure'_bind (a : α) : (Client.pure a : Client κ β ε α) >>= f = f a := rfl
@[simp] theorem throw_bind (e : ε) : (Client.throw e : Client κ β ε α) >>= f = .throw e := rfl
@[simp] theorem call_bind (c : κ) (k : Option β → Client κ β ε α) :
    Client.call c k >>= f = .call c fun b => k b >>= f := rfl

/-- Three programs in a row, bracketed either way. -/
theorem bind_assoc {α'' : Type} (p : Client κ β ε α) (g : α' → Client κ β ε α'') :
    (p >>= f) >>= g = p >>= fun a => f a >>= g := by
  induction p with
  | pure a => rfl
  | throw e => rfl
  | call c k ih => exact congrArg (Client.call c) (funext fun b => ih b)

end Bind

/-! ## What a client does

`η` is what is known of one call after the fact: `name` says which call it was, `reply` what
the client was told, and `known` is whatever holds of every event. -/

section Does

variable {η : Type} (name : η → κ) (reply : η → Option β) (known : η → Prop)

/-- However its calls end, each call of the program meets `P` and its end meets `R`, both
after the events `past`. -/
def Does (P : List η → κ → Prop) (R : List η → Except ε α → Prop) :
    Client κ β ε α → List η → Prop
  | .pure a, past => R past (.ok a)
  | .throw e, past => R past (.error e)
  | .call c k, past =>
      P past c ∧ ∀ e, known e → name e = c → Does P R (k (reply e)) (past ++ [e])

variable {name reply known} {P : List η → κ → Prop} {R : List η → Except ε α → Prop}
variable {past : List η}

@[simp] theorem does_pure {a : α} :
    Does name reply known P R (Pure.pure a : Client κ β ε α) past ↔ R past (.ok a) := Iff.rfl

@[simp] theorem does_pure' {a : α} :
    Does name reply known P R (Client.pure a : Client κ β ε α) past ↔ R past (.ok a) := Iff.rfl

@[simp] theorem does_throw {e : ε} :
    Does name reply known P R (Client.throw e : Client κ β ε α) past ↔ R past (.error e) := Iff.rfl

/-- A result that is there already is judged at once. -/
theorem does_ofExcept {x : Except ε α} :
    Does name reply known P R (ofExcept x : Client κ β ε α) past ↔ R past x := by
  cases x <;> rfl

/-- What is asked of a program, of what comes after its first part. -/
def After (name : η → κ) (reply : η → Option β) (known : η → Prop) (P : List η → κ → Prop)
    (R : List η → Except ε α' → Prop) (f : α → Client κ β ε α') (past : List η) :
    Except ε α → Prop
  | .ok a => Does name reply known P R (f a) past
  | .error e => R past (.error e)

/-- Two programs are judged as one whose end is what the second makes of the first. -/
theorem does_bind {p : Client κ β ε α} {f : α → Client κ β ε α'}
    {R : List η → Except ε α' → Prop} :
    Does name reply known P R (p >>= f) past ↔
      Does name reply known P (After name reply known P R f) p past := by
  induction p generalizing past with
  | pure a => exact Iff.rfl
  | throw e => exact Iff.rfl
  | call c k ih =>
      refine and_congr_right fun _ => forall_congr' fun e => ?_
      exact imp_congr_right fun _ => imp_congr_right fun _ => ih (reply e)

/-- What `handle` makes of an end. -/
def handled (g : ε → Except ε' α) : Except ε α → Except ε' α
  | .ok a => .ok a
  | .error e => g e

/-- What `handle` makes of an end is judged as that end. -/
theorem does_handle {g : ε → Except ε' α} {p : Client κ β ε α}
    {R : List η → Except ε' α → Prop} :
    Does name reply known P R (p.handle g) past ↔
      Does name reply known P (fun past r => R past (handled g r)) p past := by
  induction p generalizing past with
  | pure a => exact Iff.rfl
  | throw e => exact does_ofExcept
  | call c k ih =>
      refine and_congr_right fun _ => forall_congr' fun e => ?_
      exact imp_congr_right fun _ => imp_congr_right fun _ => ih (reply e)

/-- Weaker facts about the calls and the end. -/
theorem Does.mono {P' : List η → κ → Prop} {R' : List η → Except ε α → Prop}
    {p : Client κ β ε α} (h : Does name reply known P R p past)
    (hP : ∀ past c, P past c → P' past c) (hR : ∀ past r, R past r → R' past r) :
    Does name reply known P' R' p past := by
  induction p generalizing past with
  | pure a => exact hR _ _ h
  | throw e => exact hR _ _ h
  | call c k ih => exact ⟨hP _ _ h.1, fun e hk hn => ih _ (h.2 e hk hn)⟩

end Does

/-! ## One client alone -/

section Alone

variable {σ : Type} (answer : κ → σ → Option β × σ)

/-- The program with nobody else around: `answer` says what a call replies and leaves. -/
def alone : Client κ β ε α → σ → Except ε α × σ
  | .pure a, s => (.ok a, s)
  | .throw e, s => (.error e, s)
  | .call c k, s => (k (answer c s).1).alone (answer c s).2

variable {answer} {s : σ}

/-- Go on after the first part. -/
def continued (answer : κ → σ → Option β × σ) (f : α → Client κ β ε α') :
    Except ε α × σ → Except ε α' × σ
  | (.ok a, s) => (f a).alone answer s
  | (.error e, s) => (.error e, s)

/-- Alone, the second program goes on in the state that the first has left. -/
theorem alone_bind {p : Client κ β ε α} {f : α → Client κ β ε α'} :
    (p >>= f).alone answer s = continued answer f (p.alone answer s) := by
  induction p generalizing s with
  | pure a => rfl
  | throw e => rfl
  | call c k ih => exact ih _

/-- A result that is there already leaves the state. -/
theorem alone_ofExcept {x : Except ε α} :
    (ofExcept x : Client κ β ε α).alone answer s = (x, s) := by
  cases x with
  | ok a => rfl
  | error e => rfl

/-- An error that is answered keeps the state it was raised in: what was committed before stays. -/
theorem alone_handle {g : ε → Except ε' α} {p : Client κ β ε α} :
    (p.handle g).alone answer s = (handled g (p.alone answer s).1, (p.alone answer s).2) := by
  induction p generalizing s with
  | pure a => rfl
  | throw e => cases hg : g e <;> simp [handle, alone, handled, ofExcept, hg]
  | call c k ih => exact ih _

end Alone

end Client

end Txn
