/-
`operations/sessions.rs`: signing in, resolving and revoking sessions, and `me`.
-/
import Fukulow.Operations.Locks

set_option autoImplicit false

namespace Fukulow

/-- A known password, never an identity. -/
def DUMMY_PASSWORD_HASH : Text :=
  "$argon2id$v=19$m=19456,t=2,p=1$ZnVrdWxvdy1kdW1teS1zYWx0$OA3QfvZgfeDS0Ga5mZRi0S3nzxuaKJZEOshVa7Yv68s".toList

/-- `sessions_token_hash_key`. -/
def session_token_index (hash : TokenHash) : UniqueIndex where
  entry := .sessionToken hash
  constraint := "sessions_token_hash_key"
  taken db := !(db.rows.select (β := SessionId) fun
    | .session i, r => if r.token_hash = hash then some i else none
    | _, _ => none).isEmpty

/-- `SELECT actor_id, password_hash FROM users WHERE lower(email) = lower($1)`. -/
def user_by_email (s : Settings) (db : Database) (email : Text) : Option (ActorId × Text) :=
  (db.rows.select fun
    | .user a, r =>
        if lower r.email = lower email ∧ users_select s a r = true
        then some (a, r.password_hash) else none
    | _, _ => none).head?

/-- `new_token` is called only once the credential is accepted. -/
def sign_in {T : Type} (tx : Transaction) (email : Text) (verify : Text → Bool)
    (new_token : Unit → Option (T × TokenHash)) (expires_at : Instant) (id : SessionId) :
    Sql SignInError (ActorId × T) :=
  if !storable email then .throw (.database .invalidText)
  else do
    let s := begin tx (.signInEmail email)
    let person ← select fun db => user_by_email s db email
    let phc := person.elim DUMMY_PASSWORD_HASH Prod.snd
    let verified := verify phc
    match person.filter fun _ => verified with
    | none => .throw .invalidCredentials
    | some (actor, _) => do
      let s := set_context s (.actor actor)
      let departed ← lock_actor s actor actor
      if departed ≠ some false then .throw .invalidCredentials
      else do
        let still_a_person ← select fun db => (db.user actor).any fun r => users_select s actor r
        if !still_a_person then .throw .invalidCredentials
        else match new_token () with
        | none => .throw .tokenUnavailable
        | some (token, token_hash) => do
          let row : SessionRow := ⟨actor, token_hash, expires_at, none⟩
          insert (.session id) row "sessions_pkey"
            (fun _ => admit_if (sessions_insert s row) .insufficientPrivilege)
            [session_token_index token_hash] [⟨.user actor, fun _ => true⟩]
          return (actor, token)

/-- The sessions with this token hash: `UNIQUE` makes it one. -/
def sessions_with_token (db : Database) (hash : TokenHash) : List SessionId :=
  db.rows.select fun
    | .session i, r => if r.token_hash = hash then some i else none
    | _, _ => none

def resolve_session (tx : Transaction) (token_hash : TokenHash) : Sql SessionError ActorId := do
  let s := begin tx (.sessionToken token_hash)
  let row ← select fun db => (sessions_with_token db token_hash).head?.bind fun i =>
    ((db.session i).filter fun r => sessions_select s r && r.revoked_at = none
      && s.now < r.expires_at).map SessionRow.actor_id
  match row with
  | none => .throw .noSession
  | some actor => return actor

def revoke_session (tx : Transaction) (actor : ActorId) (token_hash : TokenHash) :
    Sql SessionError Unit := do
  let s := begin tx (.actor actor)
  let db ← snapshot
  match (sessions_with_token db token_hash).head? with
  | none => .throw .noSession
  | some i => do
    let row ← update_row db (.session i)
      (fun _ r => sessions_select s r && sessions_update s r)
      (fun r => r.actor_id = actor && r.token_hash = token_hash)
      (fun _ old =>
        let new := { old with revoked_at := some (old.revoked_at.getD s.now) }
        if sessions_update s new then .ok new else .error .insufficientPrivilege)
    match row with
    | none => .throw .noSession
    | some _ => return ()

structure Me where
  actor_id : ActorId
  actor_type : ActorType
  display_name : Option Text
  email : Option Text
deriving DecidableEq

def me (tx : Transaction) (actor : ActorId) : Sql SessionError Me := do
  let s := begin tx (.actor actor)
  let row ← select fun db =>
    ((db.actor actor).filter fun r => actors_select s db actor && r.deleted_at = none).map fun r =>
      Me.mk actor r.type r.display_name
        (((db.user actor).filter fun u => users_select s actor u).map UserRow.email)
  match row with
  | none => .throw .noSession
  | some me => return me

end Fukulow
