/-
`operations/invites.rs`: creating, revoking, checking and accepting invites.
-/
import Fukulow.Operations.Identity

set_option autoImplicit false

namespace Fukulow

/-- `invites_token_hash_key`. -/
def invite_token_index (hash : TokenHash) : UniqueIndex where
  entry := .inviteToken hash
  constraint := "invites_token_hash_key"
  taken db := !(db.rows.select (β := InviteId) fun
    | .invite i, r => if r.token_hash = hash then some i else none
    | _, _ => none).isEmpty

/-- `new_token` is called only once the capability is granted: `none` is a failing random
source, else the token and its hash. -/
def create_invite {T : Type} (tx : Transaction) (performed_by : ActorId)
    (organization : OrganizationId) (new_token : Unit → Option (T × TokenHash))
    (expires_at : Instant) (max_uses : ℤ) (id : InviteId) :
    Sql CreateInviteError (InviteId × T) := do
  let s := begin tx (.actor performed_by)
  let _ ← lock_actor s performed_by performed_by
  if !(← lock_organization s organization .share) then .throw .notAMember
  else match ← authorize s performed_by organization .inviteMember with
  | .forbidden => .throw .forbidden
  | .notAMember => .throw .notAMember
  | .allowed =>
    match new_token () with
    | none => .throw .tokenUnavailable
    | some (token, token_hash) => do
      let row : InviteRow :=
        { organization_id := organization, target := .organization, token_hash := token_hash
          expires_at := expires_at, max_uses := max_uses, used_count := 0, revoked_at := none
          created_by_actor_id := performed_by, xmin := s.xid }
      let inserted ← insert_from
        (fun db => (db.organization organization).isSome && organizations_select s db organization)
        (.invite id) row
        (fun db =>
          if !fukulow_guard_invite_insert row then .error (.check "invalid initial invite use")
          else if !(invites_insert s db row && invites_select s db row) then
            .error .insufficientPrivilege
          else admit_if (0 < max_uses) (.check "invites_max_uses_check"))
        [invite_token_index token_hash]
        [⟨.organization organization, fun _ => true⟩, ⟨.actor performed_by, fun _ => true⟩]
      match inserted with
      | none => .throw .notAMember
      | some false => .throw (.database (.unique "invites_pkey"))
      | some true => do
        (Event.invite_created organization id max_uses).write s organization performed_by
        return (id, token)

/-- `invite` is `none` when the path did not hold a uuid; that is decided after the
capability. -/
def revoke_invite (tx : Transaction) (performed_by : ActorId) (organization : OrganizationId)
    (invite : Option InviteId) : Sql RevokeInviteError Unit := do
  let s := begin tx (.actor performed_by)
  let _ ← lock_actor s performed_by performed_by
  if !(← lock_organization s organization .share) then .throw .notAMember
  else match ← authorize s performed_by organization .inviteMember with
  | .forbidden => .throw .forbidden
  | .notAMember => .throw .notAMember
  | .allowed =>
    match invite with
    | none => .throw .notFound
    | some invite => do
      match ← select_locking (.invite invite) .update
          (fun db r => invites_select s db r && invites_update s db r)
          (fun r => r.organization_id = organization) with
      | none => .throw .notFound
      | some row =>
        if row.revoked_at = none then do
          let _ ← update (.invite invite)
            (fun db r => invites_select s db r && invites_update s db r)
            (fun r => r.organization_id = organization)
            (fun db old =>
              let new := { old with revoked_at := some s.now, xmin := s.xid }
              if fukulow_guard_invite_use s old new && invites_update s db new then .ok new
              else .error .insufficientPrivilege)
          (Event.invite_revoked organization invite).write s organization performed_by
        else return ()

/-- The invites with this token hash: `UNIQUE` makes it one. -/
def invites_with_token (db : Database) (hash : TokenHash) : List InviteId :=
  db.rows.select fun
    | .invite i, r => if r.token_hash = hash then some i else none
    | _, _ => none

def invite_is_usable (tx : Transaction) (token_hash : TokenHash) : Sql AccessError Bool := do
  let s := begin tx (.inviteToken token_hash)
  let usable ← select fun db => (invites_with_token db token_hash).any fun i =>
    (db.invite i).any fun r => invites_select s db r && r.target.kind = .organization
      && r.used_count < r.max_uses && r.revoked_at = none && s.now < r.expires_at
  return usable

/-- `accepts_new_person`. -/
def accepts_new_person : InviteKind → Bool
  | .organization => true
  | .team => false

/-- The conditional use of `accept_invite`: one statement that decides and increments. -/
def use_invite (s : Settings) (token_hash : TokenHash) :
    Sql SqlError (Option (InviteId × InviteRow)) := do
  let db ← snapshot
  match (invites_with_token db token_hash).head? with
  | none => return none
  | some i => do
    let row ← update_row db (.invite i)
      (fun db r => invites_select s db r && invites_update s db r)
      (fun r => r.token_hash = token_hash && r.used_count < r.max_uses && r.revoked_at = none
        && s.now < r.expires_at)
      (fun db old =>
        let new := { old with used_count := old.used_count + 1, xmin := s.xid }
        if fukulow_guard_invite_use s old new && invites_update s db new then .ok new
        else .error .insufficientPrivilege)
    return row.map fun r => (i, r)

def accept_invite (tx : Transaction) (token_hash : TokenHash)
    (email password_hash display_name : Text) (actor : ActorId) :
    Sql AcceptInviteError (ActorId × OrganizationId) := do
  let s := begin tx (.inviteToken token_hash)
  match ← use_invite s token_hash with
  | none => .throw .inviteUnusable
  | some (invite, row) =>
    if !accepts_new_person row.target.kind then .throw .inviteUnusable
    else do
      let organization := row.organization_id
      let actor ← (create_person s email password_hash display_name actor).mapError fun
        | .emailTaken => AcceptInviteError.emailTaken
        | .database e => .database e
      let s := set_context s (.actor actor)
      let member : MemberRow := ⟨.member, .active, none⟩
      insert (.member organization actor) member "organization_members_pkey"
        (fun db => admit_if (organization_members_insert s db organization actor member
            || organization_members_insert_invite s db organization actor member)
          .insufficientPrivilege)
        [] [⟨.organization organization, fun _ => true⟩, ⟨.actor actor, fun _ => true⟩]
      (Event.member_invited actor invite).write s organization actor
      return (actor, organization)

end Fukulow
