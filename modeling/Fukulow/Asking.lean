/-
What the calls ask of the functions they are given.

`sign_in` is handed a verifier and a token source. `sign_in_asking` is its text once more, with
the questions it has asked so far beside every result and every error; `asking` is the engine
of all calls in which sign-ins answer that way, and in which each call is marked with the
number of calls that had ended when it began. Dropping the questions and the marks gives the
calls of `Fukulow.Calls` (`body_asking_forget`), so the runs of `asking` are the runs of the
engine, and what is said about them is said about `sign_in`.
-/
import Fukulow.Calls
import Fukulow.Txn.Carrying

set_option autoImplicit false

namespace Fukulow

/-- One question. -/
inductive Asked where
  | verify (phc : Text)
  | new_token
deriving DecidableEq

/-- A statement of a call that has asked `asked`: the `?` operator, keeping the questions. -/
def noting {α : Type} (asked : List Asked) (p : Sql SqlError α) :
    Sql (SignInError × List Asked) α :=
  p.mapError fun e => (.database e, asked)

/-- `sign_in`, and what it has asked. -/
def sign_in_asking {T : Type} (tx : Transaction) (email : Text) (verify : Text → Bool)
    (new_token : Unit → Option (T × TokenHash)) (expires_at : Instant) (id : SessionId) :
    Sql (SignInError × List Asked) ((ActorId × T) × List Asked) :=
  if !storable email then .throw (.database .invalidText, [])
  else do
    let s := begin tx (.signInEmail email)
    let person ← noting [] (select fun db => user_by_email s db email)
    let phc := person.elim DUMMY_PASSWORD_HASH Prod.snd
    let verified := verify phc
    let asked := [Asked.verify phc]
    match person.filter fun _ => verified with
    | none => .throw (.invalidCredentials, asked)
    | some (actor, _) => do
      let s := set_context s (.actor actor)
      let departed ← noting asked (lock_actor s actor actor)
      if departed ≠ some false then .throw (.invalidCredentials, asked)
      else do
        let still_a_person ← noting asked
          (select fun db => (db.user actor).any fun r => users_select s actor r)
        if !still_a_person then .throw (.invalidCredentials, asked)
        else
          let issued := new_token ()
          let asked := asked ++ [Asked.new_token]
          match issued with
          | none => .throw (.tokenUnavailable, asked)
          | some (token, token_hash) => do
            let row : SessionRow := ⟨actor, token_hash, expires_at, none⟩
            noting asked (insert (.session id) row "sessions_pkey"
              (fun _ => admit_if (sessions_insert s row) .insufficientPrivilege)
              [session_token_index token_hash] [⟨.user actor, fun _ => true⟩])
            return ((actor, token), asked)

/-- A sign-in's answer, with its questions. -/
def answer_asking :
    Except (SignInError × List Asked) ((ActorId × Text) × List Asked) → Reply × List Asked
  | .ok x => (.sign_in (.ok x.1), x.2)
  | .error e => (.sign_in (.error e.1), e.2)

/-- Any other answer: nothing was asked. -/
def asking_nothing : Except Reply Reply → Reply × List Asked
  | .ok reply => (reply, [])
  | .error reply => (reply, [])

/-- The program of a call, and what it asks; only sign-ins ask. -/
def Request.body_asking (q : Request) : Sql (Reply × List Asked) (Reply × List Asked) :=
  match q.call with
  | .sign_in email verify token expires i =>
      (sign_in_asking q.tx email verify (fun _ => token) expires i).answer answer_asking
  | _ => q.body.answer asking_nothing

/-! ## Dropping the questions -/

/-- Without what is asked, it is the operation as it stands: same statements, same answer. -/
theorem sign_in_asking_forget (tx : Transaction) (email : Text) (verify : Text → Bool)
    (new_token : Unit → Option (Text × TokenHash)) (expires_at : Instant) (id : SessionId) :
    ((sign_in_asking tx email verify new_token expires_at id).answer answer_asking).forget Prod.fst
      = (sign_in tx email verify new_token expires_at id).answer .sign_in := by
  rw [Txn.Prog.forget, Txn.Prog.answer_answer]
  unfold sign_in_asking sign_in
  by_cases hstorable : storable email = true
  · rw [hstorable]
    refine Txn.Prog.answer_bind_congr (fun _ => rfl) fun person => ?_
    dsimp only
    cases person.filter fun _ => verify (person.elim DUMMY_PASSWORD_HASH Prod.snd) with
    | none => rfl
    | some x =>
        refine Txn.Prog.answer_bind_congr (fun _ => rfl) fun departed => ?_
        by_cases hdeparted : departed ≠ some false
        · rw [if_pos hdeparted, if_pos hdeparted]
          rfl
        · rw [if_neg hdeparted, if_neg hdeparted]
          refine Txn.Prog.answer_bind_congr (fun _ => rfl) fun still => ?_
          cases still with
          | false => rfl
          | true =>
              cases new_token () with
              | none => rfl
              | some issued => exact Txn.Prog.answer_bind_congr (fun _ => rfl) fun _ => rfl
  · rw [Bool.eq_false_iff.mpr hstorable]
    rfl

/-- Without what is asked, every call is as it stands. -/
theorem body_asking_forget (q : Request) : q.body_asking.forget Prod.fst = q.body := by
  obtain ⟨c, tx⟩ := q
  cases c with
  | sign_in email verify token expires i =>
      exact sign_in_asking_forget tx email verify (fun _ => token) expires i
  | _ =>
      exact (Txn.Prog.answer_answer _ _ _).trans
        (Txn.Prog.answer_self (fun _ => rfl) (fun _ => rfl) _)

/-! ## The engine -/

/-- A call, and how many calls had ended when it began: what it reads of the database is one of
the states committed since. -/
structure Begun extends Request where
  since : ℕ

/-- The mark of a call that begins. -/
def Begun.now {β : Type} (w : Txn.World Database Write Resource Txn.LockMode Begun β) (c : Begun) :
    Bool :=
  c.since = w.history.length

/-- The engine of all calls, whose sign-ins tell what they asked. -/
def asking : Txn.Engine Database Write Resource Txn.LockMode Begun (Reply × List Asked) :=
  (engine anyCall).carrying Prod.fst Begun.toRequest (fun c => c.body_asking) Begun.now

end Fukulow
