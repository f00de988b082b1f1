/-
`crates/auth/src/lib.rs`: `verify_with`, and the sign-ins that use it.

The parser of PHC strings and the verifier are handed in. A verifier may answer by what it was
called with before, so a call is one step on the list of the calls made: nothing below leans on
two calls with the same arguments having the same answer.

Four kinds of stored text cannot be used, and three answers are possible on one that can. They
fall into four attempts (`Attempt`), each of which ends with exactly one call that counts. The
fallback on the dummy is the last call of its attempt and its answer is dropped
(`verify_with_attempt`), so nobody signs in by it.
-/
import Fukulow.SigningIn

set_option autoImplicit false

namespace Fukulow

/-! ## The code -/

/-- `password_hash::phc::PasswordHash`. -/
structure PasswordHash where
  algorithm : Text
  version : Option ℕ
  params : List (Text × Text)
  salt : Option (List UInt8)
  hash : Option (List UInt8)
deriving DecidableEq

/-- `password_hash::Error`; every variant but one is treated alike. -/
inductive PasswordError where
  | passwordInvalid
  | other (variant : String)
deriving DecidableEq

/-- One call of the verifier. -/
structure Verification where
  password : Text
  hash : PasswordHash
deriving DecidableEq

/-- What a verifier answers, after the calls made so far. -/
abbrev Verifier : Type := List Verification → Text → PasswordHash → Except PasswordError Unit

/-- `verify(password, &hash)`. -/
def Verifier.call (verify : Verifier) (password : Text) (hash : PasswordHash) :
    StateM (List Verification) (Except PasswordError Unit) :=
  fun calls => (verify calls password hash, calls ++ [⟨password, hash⟩])

/-- A hash with no salt or no output is not handed to the verifier. -/
def PasswordHash.complete (hash : PasswordHash) : Option PasswordHash :=
  match hash.salt, hash.hash with
  | some _, some _ => some hash
  | _, _ => none

/-- `new` is `PasswordHash::new`. `none` is the `Err(())` of the chain. -/
def verify_with (new : Text → Option PasswordHash) (verify : Verifier) (password phc : Text) :
    StateM (List Verification) Bool := do
  let decided ← match (new phc).bind PasswordHash.complete with
    | none => pure none
    | some hash => do
      match ← verify.call password hash with
      | .ok () => pure (some true)
      | .error .passwordInvalid => pure (some false)
      | .error _ => pure none
  match decided with
  | some b => return b
  | none => do
    match new DUMMY_PASSWORD_HASH with
    | some dummy => let _ ← verify.call password dummy
    | none => pure ()
    return false

/-- `verify_password`: a sign-in's verifier, with no calls made before. -/
def verify_password (new : Text → Option PasswordHash) (verify : Verifier) (password phc : Text) :
    Bool :=
  (verify_with new verify password phc []).1

/-! ## Attempts -/

variable {new : Text → Option PasswordHash} {verify : Verifier} {password phc : Text}
variable {calls : List Verification} {dummy : PasswordHash}

/-- The stored text parses, with a salt and an output. -/
def Usable (new : Text → Option PasswordHash) (phc : Text) (hash : PasswordHash) : Prop :=
  new phc = some hash ∧ hash.salt.isSome = true ∧ hash.hash.isSome = true

/-- A text parses in one way. -/
theorem Usable.unique {hash hash' : PasswordHash} (h : Usable new phc hash)
    (h' : Usable new phc hash') : hash = hash' :=
  Option.some.inj (h.1.symm.trans h'.1)

/-- What an attempt answers, and the calls it makes. -/
inductive Attempt (new : Text → Option PasswordHash) (verify : Verifier) (dummy : PasswordHash)
    (password phc : Text) (calls : List Verification) : Bool → List Verification → Prop
  | matched (hash : PasswordHash) : Usable new phc hash → verify calls password hash = .ok () →
      Attempt new verify dummy password phc calls true [⟨password, hash⟩]
  | mismatched (hash : PasswordHash) : Usable new phc hash →
      verify calls password hash = .error .passwordInvalid →
      Attempt new verify dummy password phc calls false [⟨password, hash⟩]
  | refused (hash : PasswordHash) (variant : String) : Usable new phc hash →
      verify calls password hash = .error (.other variant) →
      Attempt new verify dummy password phc calls false [⟨password, hash⟩, ⟨password, dummy⟩]
  | unusable : (∀ hash, ¬ Usable new phc hash) →
      Attempt new verify dummy password phc calls false [⟨password, dummy⟩]

/-- A hash is handed to the verifier when it has a salt and an output, and then as it is. -/
theorem complete_iff {hash hash' : PasswordHash} : hash.complete = some hash' ↔
    hash = hash' ∧ hash.salt.isSome = true ∧ hash.hash.isSome = true := by
  unfold PasswordHash.complete
  rcases hash with ⟨algorithm, version, params, salt, output⟩
  cases salt with
  | none => simp
  | some salt =>
      cases output with
      | none => simp
      | some output => simp

/-- What `verify_with` hands to the verifier are the usable hashes. -/
theorem usable_iff {hash : PasswordHash} :
    (new phc).bind PasswordHash.complete = some hash ↔ Usable new phc hash := by
  rw [Option.bind_eq_some_iff]
  constructor
  · rintro ⟨parsed, hparsed, hcomplete⟩
    obtain ⟨rfl, hsalt, houtput⟩ := complete_iff.mp hcomplete
    exact ⟨hparsed, hsalt, houtput⟩
  · rintro ⟨hparsed, hsalt, houtput⟩
    exact ⟨hash, hparsed, complete_iff.mpr ⟨rfl, hsalt, houtput⟩⟩

/-- **Four attempts.** `verify_with` makes one of them, and adds its calls to those before. -/
theorem verify_with_attempt (hdummy : new DUMMY_PASSWORD_HASH = some dummy) :
    ∃ made, (verify_with new verify password phc calls).2 = calls ++ made
      ∧ Attempt new verify dummy password phc calls
          (verify_with new verify password phc calls).1 made := by
  unfold verify_with
  rw [hdummy]
  cases hparsed : (new phc).bind PasswordHash.complete with
  | none =>
      refine ⟨[⟨password, dummy⟩], rfl, .unusable fun hash husable => ?_⟩
      rw [usable_iff.mpr husable] at hparsed
      cases hparsed
  | some hash =>
      have husable : Usable new phc hash := usable_iff.mp hparsed
      dsimp only [bind, StateT.bind, Verifier.call]
      cases hanswer : verify calls password hash with
      | ok u => exact ⟨[⟨password, hash⟩], rfl, .matched hash husable hanswer⟩
      | error e =>
          cases e with
          | passwordInvalid =>
              exact ⟨[⟨password, hash⟩], rfl, .mismatched hash husable hanswer⟩
          | other variant =>
              -- The fallback comes after the call that could not be decided.
              refine ⟨[⟨password, hash⟩, ⟨password, dummy⟩], ?_, ?_⟩
              · exact List.append_assoc _ _ _
              · exact .refused hash variant husable hanswer

/-! ## What an attempt shows -/

section Attempts

variable {b : Bool} {made : List Verification}

/-- The verifier has no answer of its own on the text: it cannot be used, or the verifier fails
on it with anything but `PasswordInvalid`. -/
def Undecided (new : Text → Option PasswordHash) (verify : Verifier) (password phc : Text)
    (calls : List Verification) : Prop :=
  ∀ hash, Usable new phc hash → ∃ variant, verify calls password hash = .error (.other variant)

/-- Only a match on a usable hash is an acceptance; the other three attempts end in a refusal. -/
theorem Attempt.accepts_iff (h : Attempt new verify dummy password phc calls b made) :
    b = true ↔ ∃ hash, Usable new phc hash ∧ verify calls password hash = .ok () := by
  have hother : ∀ {hash answer}, Usable new phc hash → verify calls password hash = answer →
      answer ≠ .ok () → ¬ ∃ hash, Usable new phc hash ∧ verify calls password hash = .ok () := by
    rintro hash answer husable hanswer hne ⟨hash', husable', hok⟩
    obtain rfl := husable.unique husable'
    exact hne (hanswer.symm.trans hok)
  cases h with
  | matched hash husable hok => exact ⟨fun _ => ⟨hash, husable, hok⟩, fun _ => rfl⟩
  | mismatched hash husable herror =>
      exact ⟨by rintro ⟨⟩, fun hex => absurd hex (hother husable herror (by rintro ⟨⟩))⟩
  | refused hash variant husable herror =>
      exact ⟨by rintro ⟨⟩, fun hex => absurd hex (hother husable herror (by rintro ⟨⟩))⟩
  | unusable hnone =>
      refine ⟨by rintro ⟨⟩, ?_⟩
      rintro ⟨hash, husable, -⟩
      exact absurd husable (hnone hash)

/-- At most one call on the text itself, then the fallback or nothing: the fallback follows exactly
when the text was left undecided. -/
theorem Attempt.calls_eq (h : Attempt new verify dummy password phc calls b made) :
    ∃ own fallback, made = own ++ fallback
      ∧ (∀ hash, Usable new phc hash → own = [⟨password, hash⟩])
      ∧ ((∀ hash, ¬ Usable new phc hash) → own = [])
      ∧ (Undecided new verify password phc calls → fallback = [⟨password, dummy⟩])
      ∧ (¬ Undecided new verify password phc calls → fallback = []) := by
  -- A match or a mismatch on a usable hash decides, since no other hash is usable.
  have hdecided : ∀ {hash answer}, Usable new phc hash → verify calls password hash = answer →
      (∀ variant, answer ≠ .error (.other variant)) → ¬ Undecided new verify password phc calls := by
    intro hash answer husable hanswer hne hundecided
    obtain ⟨variant, hvariant⟩ := hundecided hash husable
    exact hne variant (hanswer.symm.trans hvariant)
  have hown : ∀ {hash}, Usable new phc hash →
      ∀ hash', Usable new phc hash' → [Verification.mk password hash] = [⟨password, hash'⟩] :=
    fun husable hash' husable' => by rw [husable.unique husable']
  cases h with
  | matched hash husable hok =>
      have hnot := hdecided husable hok (by rintro _ ⟨⟩)
      exact ⟨[⟨password, hash⟩], [], rfl, hown husable, fun hnone => absurd husable (hnone hash),
        fun hyes => absurd hyes hnot, fun _ => rfl⟩
  | mismatched hash husable herror =>
      have hnot := hdecided husable herror (by rintro _ ⟨⟩)
      exact ⟨[⟨password, hash⟩], [], rfl, hown husable, fun hnone => absurd husable (hnone hash),
        fun hyes => absurd hyes hnot, fun _ => rfl⟩
  | refused hash variant husable herror =>
      have hyes : Undecided new verify password phc calls := by
        intro hash' husable'
        obtain rfl := husable.unique husable'
        exact ⟨variant, herror⟩
      exact ⟨[⟨password, hash⟩], [⟨password, dummy⟩], rfl, hown husable,
        fun hnone => absurd husable (hnone hash), fun _ => rfl, fun hnot => absurd hyes hnot⟩
  | unusable hnone =>
      exact ⟨[], [⟨password, dummy⟩], rfl, fun hash husable => absurd husable (hnone hash),
        fun _ => rfl, fun _ => rfl, fun hnot => absurd (fun hash husable =>
          absurd husable (hnone hash)) hnot⟩

/-- The answer depends on the verifier only through its call on the text itself, so what the
fallback answers makes no difference. -/
theorem Attempt.answer_eq {verify' : Verifier} {b' : Bool} {made' : List Verification}
    (h : Attempt new verify dummy password phc calls b made)
    (h' : Attempt new verify' dummy password phc calls b' made')
    (hsame : ∀ hash, Usable new phc hash → verify' calls password hash = verify calls password hash) :
    b' = b := by
  rw [Bool.eq_iff_iff, h.accepts_iff, h'.accepts_iff]
  refine exists_congr fun hash => and_congr_right fun husable => ?_
  rw [hsame hash husable]

/-- The `n`-th of the calls counts: it is the match or mismatch on the text itself, or it is
the fallback. -/
def Counts (new : Text → Option PasswordHash) (verify : Verifier) (dummy : PasswordHash)
    (password phc : Text) (calls made : List Verification) (n : ℕ) : Prop :=
  (∃ hash, Usable new phc hash ∧ n = 0 ∧ made[n]? = some ⟨password, hash⟩
      ∧ (verify calls password hash = .ok () ∨ verify calls password hash = .error .passwordInvalid))
    ∨ (Undecided new verify password phc calls ∧ n + 1 = made.length
      ∧ made[n]? = some ⟨password, dummy⟩)

/-- **Exactly one call counts.** A decided attempt made one call, and the fallback of an undecided
one is the last call. -/
theorem Attempt.one_counts (h : Attempt new verify dummy password phc calls b made) :
    ∃! n, Counts new verify dummy password phc calls made n := by
  cases h with
  | matched hash husable hok =>
      refine ⟨0, .inl ⟨hash, husable, rfl, rfl, .inl hok⟩, ?_⟩
      rintro n (⟨-, -, rfl, -⟩ | ⟨-, hlast, -⟩)
      · rfl
      · exact Nat.succ.inj hlast
  | mismatched hash husable herror =>
      refine ⟨0, .inl ⟨hash, husable, rfl, rfl, .inr herror⟩, ?_⟩
      rintro n (⟨-, -, rfl, -⟩ | ⟨-, hlast, -⟩)
      · rfl
      · exact Nat.succ.inj hlast
  | refused hash variant husable herror =>
      have hyes : Undecided new verify password phc calls := by
        intro hash' husable'
        obtain rfl := husable.unique husable'
        exact ⟨variant, herror⟩
      refine ⟨1, .inr ⟨hyes, rfl, rfl⟩, ?_⟩
      rintro n (⟨hash', husable', -, -, hanswer⟩ | ⟨-, hlast, -⟩)
      · -- The first call was answered with another error.
        obtain rfl := husable.unique husable'
        rw [herror] at hanswer
        rcases hanswer with hok | hinvalid
        · cases hok
        · cases hinvalid
      · exact Nat.succ.inj hlast
  | unusable hnone =>
      refine ⟨0, .inr ⟨fun hash husable => absurd husable (hnone hash), rfl, rfl⟩, ?_⟩
      rintro n (⟨hash, husable, -⟩ | ⟨-, hlast, -⟩)
      · exact absurd husable (hnone hash)
      · exact Nat.succ.inj hlast

end Attempts

/-! ## With `sign_in` -/

section SignIn

variable {w : World} {n : ℕ} {email : Text} {L : Held} {token : Option (Text × TokenHash)}
variable {expires_at : Instant} {id : SessionId}

/-- What a finished call asked. -/
def asked_of : Txn.Outcome Write (Reply × List Asked) → List Asked
  | .committed _ b => b.2
  | .failed b => b.2
  | .aborted => []

/-- Whose password hash a sign-in verifies that began when `n` calls had ended: that of the user
whom the email names, or the dummy's when it names none. -/
inductive Presented (w : World) (n : ℕ) (email : Text) : Text → Prop
  | known (i : ℕ) (a : ActorId) (r : UserRow) : Found w n email i a r →
      Presented w n email r.password_hash
  | unknown (i : ℕ) (db : Database) : n ≤ i → w.states[i]? = some db →
      (∀ a r, db.user a = some r → lower r.email ≠ lower email) →
      Presented w n email DUMMY_PASSWORD_HASH

/-- **One verification a sign-in.** It is of the text presented, and without an acceptance, or
without a user, the credential is invalid. -/
theorem Decided.presented {check : Text → Bool} {o : Txn.Outcome Write (Reply × List Asked)}
    (h : Decided w n email check L token expires_at id o) :
    ∃ phc rest, asked_of o = .verify phc :: rest ∧ (∀ t, Asked.verify t ∉ rest)
      ∧ Presented w n email phc
      ∧ (o = .failed (.sign_in (.error .invalidCredentials), [.verify phc])
        ∨ (∃ i a r, Found w n email i a r ∧ r.password_hash = phc) ∧ check phc = true) := by
  have hsource : ∀ t : Text, Asked.verify t ∉ [Asked.new_token] := by simp
  cases h with
  | unknown i db hsince hread hnone =>
      exact ⟨_, [], rfl, fun _ => List.not_mem_nil, .unknown i db hsince hread hnone, .inl rfl⟩
  | refused i a r hfound hverify =>
      exact ⟨_, [], rfl, fun _ => List.not_mem_nil, .known i a r hfound, .inl rfl⟩
  | departed i a r k e haccepted =>
      exact ⟨_, [], rfl, fun _ => List.not_mem_nil, .known i a r haccepted.toFound, .inl rfl⟩
  | no_token i a r haccepted =>
      exact ⟨_, _, rfl, hsource, .known i a r haccepted.toFound,
        .inr ⟨⟨i, a, r, haccepted.toFound, rfl⟩, haccepted.verified⟩⟩
  | taken i a r t hash name haccepted =>
      exact ⟨_, _, rfl, hsource, .known i a r haccepted.toFound,
        .inr ⟨⟨i, a, r, haccepted.toFound, rfl⟩, haccepted.verified⟩⟩
  | signed_in i a r t hash haccepted =>
      exact ⟨_, _, rfl, hsource, .known i a r haccepted.toFound,
        .inr ⟨⟨i, a, r, haccepted.toFound, rfl⟩, haccepted.verified⟩⟩

end SignIn

/-- **A stored hash that cannot be used** costs one verification of the dummy, and never
authenticates. `verify_with` accepts exactly a usable hash that the verifier accepts, makes the
calls of one attempt, and drops what the fallback answers. With it as the verifier of
`sign_in`, each attempt at any interleaving presents one text, makes one call that counts, and
ends as `InvalidCredentials` unless a user was found whose usable hash the verifier accepted;
who is found, or that nobody is, is read in a state committed since the attempt began. -/
theorem unusable_hash_never_authenticates
    (hdummy : Usable new DUMMY_PASSWORD_HASH dummy) :
    (∀ (verify : Verifier) password phc calls,
      ((verify_with new verify password phc calls).1 = true ↔
        ∃ hash, Usable new phc hash ∧ verify calls password hash = .ok ())
      ∧ (∃ own fallback,
        (verify_with new verify password phc calls).2 = calls ++ (own ++ fallback)
        ∧ (∀ hash, Usable new phc hash → own = [⟨password, hash⟩])
        ∧ ((∀ hash, ¬ Usable new phc hash) → own = [])
        ∧ (Undecided new verify password phc calls → fallback = [⟨password, dummy⟩])
        ∧ (¬ Undecided new verify password phc calls → fallback = []))
      ∧ ∀ verify' : Verifier,
        (∀ hash, Usable new phc hash → verify' calls password hash = verify calls password hash) →
        (verify_with new verify' password phc calls).1
          = (verify_with new verify password phc calls).1)
    ∧ ∀ (verify : Verifier) password s, asking.Reachable AskingWorld.empty s →
      ∀ pre e post, s.world.history = pre ++ e :: post →
      ∀ email token expires_at id,
        e.call.call = .sign_in email (verify_password new verify password) token expires_at id →
        storable email = true → e.outcome ≠ .aborted →
      ∃ phc rest made, asked_of e.outcome = .verify phc :: rest ∧ (∀ t, Asked.verify t ∉ rest)
        ∧ Presented (Txn.World.map Prod.fst Begun.toRequest ⟨e.before, pre⟩) e.call.since email phc
        ∧ verify_with new verify password phc [] = (verify_password new verify password phc, made)
        ∧ (∃! n, Counts new verify dummy password phc [] made n)
        ∧ (e.outcome = .failed (.sign_in (.error .invalidCredentials), [.verify phc])
          ∨ (∃ i a r, Found (Txn.World.map Prod.fst Begun.toRequest ⟨e.before, pre⟩) e.call.since email
              i a r ∧ r.password_hash = phc)
            ∧ ∃ hash, Usable new phc hash ∧ verify [] password hash = .ok ()) := by
  refine ⟨?_, ?_⟩
  · intro verify password phc calls
    obtain ⟨made, hmade, hattempt⟩ := @verify_with_attempt new verify password phc calls dummy hdummy.1
    obtain ⟨own, fallback, hsplit, hrest⟩ := hattempt.calls_eq
    refine ⟨hattempt.accepts_iff, ⟨own, fallback, by rw [hmade, hsplit], hrest⟩, ?_⟩
    intro verify' hsame
    obtain ⟨made', -, hattempt'⟩ := @verify_with_attempt new verify' password phc calls dummy hdummy.1
    exact hattempt.answer_eq hattempt' hsame
  · intro verify password s hs pre e post hsplit email token expires_at id hcall hstorable hend
    have hdecided := sign_in_decided hs hsplit hcall hstorable hend
    obtain ⟨phc, rest, hasked, hrest, hpresented, hanswer⟩ := hdecided.presented
    obtain ⟨made, hmade, hattempt⟩ := @verify_with_attempt new verify password phc [] dummy hdummy.1
    rw [List.nil_append] at hmade
    refine ⟨phc, rest, made, hasked, hrest, hpresented, Prod.ext rfl hmade, hattempt.one_counts, ?_⟩
    rcases hanswer with hinvalid | ⟨hknown, haccepted⟩
    · exact .inl hinvalid
    · exact .inr ⟨hknown, hattempt.accepts_iff.mp haccepted⟩

/-- `DUMMY_PASSWORD_HASH`, parsed. -/
def dummy_hash : PasswordHash where
  algorithm := "argon2id".toList
  version := some 19
  params := [(['m'], "19456".toList), (['t'], ['2']), (['p'], ['1'])]
  salt := some [102, 117, 107, 117, 108, 111, 119, 45, 100, 117, 109, 109, 121, 45, 115, 97, 108, 116]
  hash := some [56, 13, 208, 126, 246, 96, 125, 224, 210, 208, 102, 185, 153, 148, 98, 209, 45, 231, 207,
        27, 154, 40, 150, 68, 58, 200, 85, 107, 182, 47, 235, 203]

/-- Someone whose stored hash is no PHC string, and a verifier that accepts whatever it is
given: it is given the dummy, and nobody signs in. -/
theorem unusable_hash_never_authenticates_malformed :
    ∃ s, asking.Reachable AskingWorld.empty s ∧ ∃ pre e post made, s.world.history = pre ++ e :: post
      ∧ e.outcome = .failed (.sign_in (.error .invalidCredentials), [.verify []])
      ∧ verify_with (fun t => if t = DUMMY_PASSWORD_HASH then some dummy_hash else none)
          (fun _ _ _ => .ok ()) ['p'] [] [] = (false, made)
      ∧ ∃! n, Counts (fun t => if t = DUMMY_PASSWORD_HASH then some dummy_hash else none)
          (fun _ _ _ => .ok ()) dummy_hash ['p'] [] [] made n := by
  have hdummy : Usable (fun t => if t = DUMMY_PASSWORD_HASH then some dummy_hash else none)
      DUMMY_PASSWORD_HASH dummy_hash := ⟨if_pos rfl, rfl, rfl⟩
  have hrun : (asking.serve 100 [⟨⟨.create_person ['a'] [] ['A'] ⟨1⟩, ⟨0, 1⟩⟩, 0⟩,
        ⟨⟨.sign_in ['A'] (verify_password
          (fun t => if t = DUMMY_PASSWORD_HASH then some dummy_hash else none)
          (fun _ _ _ => .ok ()) ['p']) (some (['t'], first_key)) 100 ⟨50⟩, ⟨0, 2⟩⟩, 1⟩]
      (Txn.Engine.idle AskingWorld.empty)).bind
        (fun s => s.world.history[1]?.map fun e => (e.call, e.outcome))
      = some (⟨⟨.sign_in ['A'] (verify_password
          (fun t => if t = DUMMY_PASSWORD_HASH then some dummy_hash else none)
          (fun _ _ _ => .ok ()) ['p']) (some (['t'], first_key)) 100 ⟨50⟩, ⟨0, 2⟩⟩, 1⟩,
          .failed (.sign_in (.error .invalidCredentials), [.verify []])) := rfl
  obtain ⟨s, hserve, hentry⟩ := Option.bind_eq_some_iff.mp hrun
  obtain ⟨e, he, heq⟩ := Option.map_eq_some_iff.mp hentry
  rw [Prod.mk.injEq] at heq
  obtain ⟨hcall, houtcome⟩ := heq
  have hreach := (Txn.Engine.ReachableIn.of_serve (fun _ h => h) hserve).reachable
  obtain ⟨pre, post, hsplit⟩ := List.append_of_mem (List.mem_of_getElem? he)
  obtain ⟨phc, rest, made, hasked, -, -, hcalls, hcounts, -⟩ :=
    (unusable_hash_never_authenticates hdummy).2 _ ['p'] s hreach pre e post hsplit ['A']
      (some (['t'], first_key)) 100 ⟨50⟩ (by rw [hcall]) (by decide) (by rw [houtcome]; rintro ⟨⟩)
  rw [houtcome] at hasked
  cases hasked
  exact ⟨s, hreach, pre, e, post, made, hsplit, houtcome, hcalls, hcounts⟩

end Fukulow
