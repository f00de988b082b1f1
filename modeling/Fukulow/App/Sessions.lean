/-
`crates/app/src/sessions.rs`: the session handlers, and what they share with the others.

A handler is a client of the transaction system: between two of its calls to the crate `db`
anybody else may act. It ends with a response, or with the status of an error; a thread that
panics ends with neither (`Stop`). What the handlers take from elsewhere is in `Libraries`,
and what changes from one request to the next (the clock, the random source, the new uuid) in
`Ambient`.
-/
import Fukulow.App.Bodies
import Fukulow.Auth.Passwords
import Fukulow.Auth.Tokens
import Fukulow.Calls
import Fukulow.Txn.Client

set_option autoImplicit false

namespace Fukulow

/-! ## What the handlers are built on -/

/-- `time::Duration`, in seconds, as instants are. -/
abbrev Duration : Type := ℤ

def Duration.seconds (n : ℤ) : Duration := n

def Duration.days (n : ℤ) : Duration := Duration.seconds (n * 86400)

/-- `axum_extra::extract::cookie::SameSite`. -/
inductive SameSite where
  | strict | lax | none
deriving DecidableEq

/-- `Cookie`, with no `Domain` and no `Expires`. -/
structure Cookie where
  name : String
  value : Text
  http_only : Bool
  secure : Bool
  same_site : SameSite
  path : String
  max_age : Duration
deriving DecidableEq

/-- The third-party functions that the handlers call. -/
structure Libraries where
  /-- `CookieJar::from_headers`, then `get` by name and `value`. -/
  cookie : List (String × List UInt8) → String → Option Text
  /-- The extractor `Bytes`. -/
  bytes : HttpRequest → Option (List UInt8)
  from_slice : List UInt8 → Option Value
  to_vec : Value → List UInt8
  /-- A cookie as a `Set-Cookie` header. -/
  set_cookie : Cookie → List UInt8
  /-- `format(&Rfc3339)`, in UTC. -/
  rfc3339 : Instant → Option Text
  parse_str : Text → Option Uuid
  sha256 : List UInt8 → Vector UInt8 32
  /-- `PasswordHash::new`. -/
  password_hash : Text → Option PasswordHash
  verifier : Verifier
  /-- `Argon2::hash_password_with_salt`. -/
  hash_password_with_salt : List UInt8 → Vector UInt8 16 → Option Text

/-- What one request finds: the time, what `getrandom` fills its buffers with (`none` when it
fails), and the uuid that `Uuid::now_v7` gives. -/
structure Ambient where
  now : Instant
  session_bytes : Option (Vector UInt8 32)
  invite_bytes : Option (Vector UInt8 32)
  salt : Option (Vector UInt8 16)
  id : Uuid

/-! ## `auth/src/lib.rs` -/

section Auth

variable (lib : Libraries)

/-- `getrandom::fill`. -/
def fill {n : ℕ} (drawn : Option (Vector UInt8 n)) : Vector UInt8 n → Except Unit (Vector UInt8 n) :=
  fun _ => drawn.elim (.error ()) .ok

def hash_session_token (token : Text) : TokenHash := hash_token lib.sha256 token

def hash_invite_token (token : Text) : TokenHash := hash_token lib.sha256 token

def new_session_token (drawn : Option (Vector UInt8 32)) : Except TokenError (Text × TokenHash) := do
  let token ← random_token (fill drawn)
  let hash := hash_session_token lib token
  return (token, hash)

def new_invite_token (drawn : Option (Vector UInt8 32)) : Except TokenError (Text × TokenHash) := do
  let token ← random_token (fill drawn)
  let hash := hash_invite_token lib token
  return (token, hash)

inductive PasswordHashError where
  | passwordHashError
deriving DecidableEq

def hash_password (drawn : Option (Vector UInt8 16)) (password : Text) :
    Except PasswordHashError Text := do
  let salt ← (fill drawn (Vector.replicate 16 0)).mapError fun _ => .passwordHashError
  match lib.hash_password_with_salt (Utf8.encode password) salt with
  | some hash => .ok hash
  | none => .error .passwordHashError

end Auth

/-- `StateData` without its pool; its functions are what they return in one request, which
calls none of them twice. -/
structure StateData where
  origin : Text
  new_token : Except TokenError (Text × TokenHash)
  now : Instant
  new_invite_token : Except TokenError (Text × TokenHash)
  hash_invite_password : Text → Except PasswordHashError Text

/-- `StateData::new`. -/
def StateData.new (lib : Libraries) (origin : Text) (ambient : Ambient) : StateData where
  origin := origin
  new_token := new_session_token lib ambient.session_bytes
  now := ambient.now
  new_invite_token := Fukulow.new_invite_token lib ambient.invite_bytes
  hash_invite_password := hash_password lib ambient.salt

/-! ## The crate `db`, as the handlers call it -/

/-- Part of a handler. -/
abbrev Http (α : Type) : Type := Txn.Client Call Reply Stop α

/-- What a call returned, with the status of each error. `none` is the error of a connection
that was lost under the call, which is one of the `Database` variant. -/
def returned {ε α : Type} (status : Option ε → StatusCode) : Option (Except ε α) → Http α
  | some (.ok a) => .pure a
  | some (.error e) => .throw (.status (status (some e)))
  | none => .throw (.status (status none))

/-- A call, and its reply. -/
def db_call {ε α : Type} (c : Call) (result : Reply → Option (Except ε α))
    (status : Option ε → StatusCode) : Http α :=
  .call c fun reply => returned status (reply.bind result)

namespace Reply

def of_create_invite : Reply → Option (Except CreateInviteError (InviteId × Text))
  | create_invite r => some r
  | _ => none

def of_revoke_invite : Reply → Option (Except RevokeInviteError Unit)
  | revoke_invite r => some r
  | _ => none

def of_invite_is_usable : Reply → Option (Except AccessError Bool)
  | invite_is_usable r => some r
  | _ => none

def of_accept_invite : Reply → Option (Except AcceptInviteError (ActorId × OrganizationId))
  | accept_invite r => some r
  | _ => none

def of_sign_in : Reply → Option (Except SignInError (ActorId × Text))
  | sign_in r => some r
  | _ => none

def of_resolve_session : Reply → Option (Except SessionError ActorId)
  | resolve_session r => some r
  | _ => none

def of_revoke_session : Reply → Option (Except SessionError Unit)
  | revoke_session r => some r
  | _ => none

def of_me : Reply → Option (Except SessionError Me)
  | me r => some r
  | _ => none

end Reply

/-! ## `sessions.rs` -/

/-- `ActorType::as_str`. -/
def ActorType.as_str : ActorType → String
  | human => "human"
  | bot => "bot"
  | integration => "integration"
  | system => "system"

namespace sessions

def COOKIE_NAME : String := "__Host-fukulow_session"

def SESSION_LIFETIME : Duration := Duration.days 14

/-- Who makes the request, and the key of the session it came with. -/
structure Authenticated where
  actor : ActorId
  session : TokenHash

/-- `session_error`; `none` is a lost connection. -/
def session_error : Option SessionError → StatusCode
  | some .noSession => .UNAUTHORIZED
  | some (.database _) | none => .INTERNAL_SERVER_ERROR

variable (lib : Libraries)

/-- The extractor of `Authenticated`. -/
def from_request_parts (request : HttpRequest) : Http Authenticated := do
  let token ← .ofExcept (or_status (lib.cookie request.headers COOKIE_NAME) .UNAUTHORIZED)
  let hash := hash_session_token lib token
  let actor ← db_call (.resolve_session hash) Reply.of_resolve_session session_error
  return ⟨actor, hash⟩

def cookie (value : Text) (lifetime : Duration) : Cookie where
  name := COOKIE_NAME
  value := value
  http_only := true
  secure := true
  same_site := .strict
  path := "/"
  max_age := lifetime

/-- `CookieJar::new().add(cookie)` with a status. -/
def with_cookie (status : StatusCode) (cookie : Cookie) : HttpResponse :=
  ⟨status, [("set-cookie", lib.set_cookie cookie)], []⟩

/-- The status of a failed sign-in. -/
def sign_in_error : Option SignInError → StatusCode
  | some .invalidCredentials => .UNAUTHORIZED
  | some .tokenUnavailable | some (.database _) | none => .INTERNAL_SERVER_ERROR

/-- What `sign_in` reads of its body: an email that can be looked up, and a password. -/
def credentials (body : Option (List UInt8)) : Except Stop (Text × Text) := do
  let body ← or_status body .UNPROCESSABLE_ENTITY
  let value ← or_status (lib.from_slice body) .UNPROCESSABLE_ENTITY
  let object ← or_status value.as_object .UNPROCESSABLE_ENTITY
  let email ← or_status (((object.lookup "email".toList).bind Value.as_str).filter
    fun email => !email.contains '\x00') .UNPROCESSABLE_ENTITY
  let password ← or_status ((object.lookup "password".toList).bind Value.as_str)
    .UNPROCESSABLE_ENTITY
  return (email, password)

def sign_in (state : StateData) (id : SessionId) (body : Option (List UInt8)) :
    Http HttpResponse := do
  let (email, password) ← .ofExcept (credentials lib body)
  let (_, token) ← db_call
    (.sign_in email (verify_password lib.password_hash lib.verifier password)
      state.new_token.toOption (state.now + SESSION_LIFETIME) id) Reply.of_sign_in sign_in_error
  return with_cookie lib .NO_CONTENT (cookie token SESSION_LIFETIME)

def sign_out (authenticated : Authenticated) : Http HttpResponse := do
  db_call (.revoke_session authenticated.actor authenticated.session) Reply.of_revoke_session
    session_error
  return with_cookie lib .NO_CONTENT (cookie [] 0)

def me_json (me : Me) : Value :=
  .object ([("actor".toList, .object
    [("id".toList, .string (hyphenated me.actor_id.uuid)),
      ("type".toList, .string me.actor_type.as_str.toList),
      ("display_name".toList, me.display_name.elim .null .string)])]
    ++ me.email.elim [] fun email => [("user".toList, .object [("email".toList, .string email)])])

/-- `Json` with a status. -/
def json (status : StatusCode) (value : Value) : HttpResponse :=
  ⟨status, [("content-type", Utf8.encode "application/json".toList)], lib.to_vec value⟩

def me (authenticated : Authenticated) : Http HttpResponse := do
  let me ← db_call (.me authenticated.actor) Reply.of_me session_error
  return json lib .OK (me_json me)

end sessions

end Fukulow
