/-
`crates/app/src/invites.rs`: the invite handlers.

`accept` asks twice whether the invite can be used: before it reads the other fields and
hashes the password, and again where the use is counted. Only the second answer decides.
-/
import Fukulow.App.Sessions

set_option autoImplicit false

namespace Fukulow

namespace invites

open sessions (Authenticated)

variable (lib : Libraries)

/-- The status of a failed creation. -/
def create_error : Option CreateInviteError → StatusCode
  | some .notAMember => .NOT_FOUND
  | some .forbidden => .FORBIDDEN
  | some .tokenUnavailable | some (.database _) | none => .INTERNAL_SERVER_ERROR

/-- The status of a failed revocation. -/
def revoke_error : Option RevokeInviteError → StatusCode
  | some .forbidden => .FORBIDDEN
  | some .notAMember | some .notFound => .NOT_FOUND
  | some (.database _) | none => .INTERNAL_SERVER_ERROR

/-- The status of a failed acceptance. -/
def accept_error : Option AcceptInviteError → StatusCode
  | some .inviteUnusable => .NOT_FOUND
  | some .emailTaken => .CONFLICT
  | some (.database _) | none => .INTERNAL_SERVER_ERROR

def usable_error : Option AccessError → StatusCode := fun _ => .INTERNAL_SERVER_ERROR

/-- `as i32`. -/
def as_i32 (n : ℤ) : ℤ := n.bmod (2 ^ 32)

/-- How often the invite can be used: once, unless the field is there. -/
def max_uses (fields : Fields) : Except Stop ℤ :=
  if (fields.lookup "max_uses".toList).isSome then do
    let value ← integer fields "max_uses" 1 100
    return as_i32 value
  else return 1

/-- What `create` reads of its body: a lifetime, and a number of uses. -/
def terms (body : Option (List UInt8)) : Except Stop (Duration × ℤ) := do
  let fields ← object lib.from_slice body
  let expires_in ← integer fields "expires_in" 300 604800
  let uses ← max_uses fields
  return (Duration.seconds expires_in, uses)

/-- A decimal integer of JSON. -/
def json_integer (n : ℤ) : Value :=
  .number (if 0 ≤ n then .pos_int (UInt64.ofNat n.toNat) else .neg_int (Int64.ofInt n))

/-- What the creator is told, and nobody again. -/
def created_json (origin : Text) (id : InviteId) (token formatted : Text) (max_uses : ℤ) : Value :=
  .object
    [("id".toList, .string (hyphenated id.uuid)), ("token".toList, .string token),
      ("link".toList, .string (origin ++ "/invite#".toList ++ token)),
      ("expires_at".toList, .string formatted), ("max_uses".toList, json_integer max_uses)]

def create (state : StateData) (authenticated : Authenticated) (uri : Text) (id : InviteId)
    (body : Option (List UInt8)) : Http HttpResponse := do
  let (expires_in, max_uses) ← .ofExcept (terms lib body)
  let organization ← .ofExcept (path_identifier lib.parse_str uri 4)
  let expires_at := state.now + expires_in
  let formatted ← .ofExcept (or_status (lib.rfc3339 expires_at) .INTERNAL_SERVER_ERROR)
  let (id, token) ← db_call
    (.create_invite authenticated.actor ⟨organization⟩ state.new_invite_token.toOption expires_at
      max_uses id) Reply.of_create_invite create_error
  return sessions.json lib .CREATED (created_json state.origin id token formatted max_uses)

def revoke (authenticated : Authenticated) (uri : Text) : Http HttpResponse := do
  let organization ← .ofExcept (path_identifier lib.parse_str uri 4)
  let invite := (path_identifier lib.parse_str uri 6).toOption.map Identifier.mk
  db_call (.revoke_invite authenticated.actor ⟨organization⟩ invite) Reply.of_revoke_invite
    revoke_error
  return StatusCode.NO_CONTENT.into_response

def accept (state : StateData) (id : ActorId) (body : Option (List UInt8)) : Http HttpResponse := do
  let fields ← .ofExcept (object lib.from_slice body)
  let token ← .ofExcept (string fields "token")
  let hash := hash_invite_token lib token
  let usable ← db_call (.invite_is_usable hash) Reply.of_invite_is_usable usable_error
  if !usable then .throw (.status .NOT_FOUND)
  else do
    let (email, password, display_name) ← .ofExcept (acceptance_fields fields)
    -- A usable token precedes argon2, which must not hold the lock on the shared invite.
    let password_hash ← .ofExcept
      (or_status (state.hash_invite_password password).toOption .INTERNAL_SERVER_ERROR)
    let _ ← db_call (.accept_invite hash email password_hash display_name id)
      Reply.of_accept_invite accept_error
    return StatusCode.NO_CONTENT.into_response

end invites

/-- Whatever `parse_str` is, a path is refused as not found, and never unwinds. -/
theorem path_identifier_error {parse_str : Text → Option Uuid} {path : Text} {k : ℕ} {stop : Stop}
    (h : path_identifier parse_str path k = .error stop) : stop = .status .NOT_FOUND := by
  have hidentifier : ∀ value : Text, identifier parse_str value = .error stop →
      stop = .status .NOT_FOUND := by
    intro value hvalue
    by_cases hlength : (Utf8.encode value).length = 36
    · rw [identifier_of_length hlength] at hvalue
      by_cases hsep : Groups.Separated '-'.toUInt8 uuid_groups (Utf8.encode value)
      · rw [if_pos hsep] at hvalue
        cases hparse : parse_str value with
        | none =>
            rw [hparse] at hvalue
            cases hvalue
            rfl
        | some u =>
            rw [hparse] at hvalue
            cases hvalue
      · rw [if_neg hsep] at hvalue
        cases hvalue
        rfl
    · rw [identifier, if_pos hlength] at hvalue
      cases hvalue
      rfl
  cases hraw : (path.splitOn '/')[k]? with
  | none =>
      rw [path_identifier_missing hraw] at h
      cases h
      rfl
  | some raw =>
      rcases decode_segment_decoded (Utf8.encode raw) [] with hok | ⟨herror, -⟩
      · rw [path_identifier_decoded hraw hok] at h
        cases hvalue : Utf8.decode ([] ++ Percent.decode (Utf8.encode raw)) with
        | none =>
            rw [hvalue] at h
            cases h
            rfl
        | some value =>
            rw [hvalue] at h
            exact hidentifier value h
      · rw [path_identifier_refused hraw herror] at h
        cases h
        rfl

end Fukulow
