/-
Row security: the policies, the two definer functions and the two triggers of
`202609170004_row_level_security`, `202609170005_channel_member_organization` and
`202609180001_invite_acceptance`, and the transaction settings they read
(`crates/db/src/context.rs`).

A policy is a predicate on the settings of the transaction, the state its statement
sees and a row. PostgreSQL evaluates a policy's subqueries with the snapshot of the
statement, so the state passed here is always the one the statement started with;
several permissive policies for one command are one disjunction. A comparison with
an unset setting is NULL and admits nothing. `id IN (SELECT ...)` is written as the
membership it decides.
-/
import Fukulow.Schema

set_option autoImplicit false

namespace Fukulow

/-! ## Settings -/

/-- `db::Context`: what the request presented. -/
inductive Context where
  | actor (actor : ActorId)
  | sessionToken (hash : TokenHash)
  | signInEmail (email : Text)
  | inviteToken (hash : TokenHash)

/-- The `fukulow.*` settings of one transaction, its start time and its id. -/
structure Settings where
  actor_id : Option ActorId := none
  session_token_hash : Option TokenHash := none
  sign_in_email : Option Text := none
  invite_token_hash : Option TokenHash := none
  now : Instant
  xid : ℕ

/-- `set_context`: one setting per context, the others stay. -/
def set_context (s : Settings) : Context → Settings
  | .actor a => { s with actor_id := some a }
  | .sessionToken h => { s with session_token_hash := some h }
  | .signInEmail e => { s with sign_in_email := some e }
  | .inviteToken h => { s with invite_token_hash := some h }

/-- `lower(... COLLATE "C")`: only ASCII letters change. -/
def lower (t : Text) : Text := t.map Char.toLower

/-! ## The definer functions -/

section Policies

variable (s : Settings) (db : Database)

/-- Is `o` among `fukulow_active_organizations()`? -/
def fukulow_active_organizations (o : OrganizationId) : Bool :=
  s.actor_id.any fun a => db.active o a

/-- `fukulow_organization_has_members(o)`. -/
def fukulow_organization_has_members (o : OrganizationId) : Bool :=
  !(db.rows.select (β := ActorId) fun
    | .member o' a, _ => if o' = o then some a else none
    | _, _ => none).isEmpty

/-! ## Policies -/

def organizations_select (o : OrganizationId) : Bool := fukulow_active_organizations s db o

def organizations_insert : Bool := s.actor_id.isSome

def organizations_update (o : OrganizationId) : Bool := fukulow_active_organizations s db o

def organization_members_select (o : OrganizationId) (a : ActorId) : Bool :=
  fukulow_active_organizations s db o || s.actor_id = some a

/-- The organizations in which `a` has a membership that the performer sees. -/
def visible_memberships (a : ActorId) : List OrganizationId :=
  db.rows.select fun
    | .member o a', _ =>
        if a' = a ∧ organization_members_select s db o a' = true then some o else none
    | _, _ => none

def organization_members_insert (o : OrganizationId) (a : ActorId) (r : MemberRow) : Bool :=
  fukulow_active_organizations s db o
    || (s.actor_id = some a && r.role = .owner && r.status = .active
        && !fukulow_organization_has_members db o)

/-- `organization_members_insert_invite`: an invite of the organization, presented by its
token, whose current version a use in this very transaction wrote. -/
def organization_members_insert_invite (o : OrganizationId) (a : ActorId) (r : MemberRow) : Bool :=
  s.actor_id = some a && r.role = .member && r.status = .active
    && !(db.rows.select (β := InviteId) fun
      | .invite i, v =>
          if v.organization_id = o ∧ s.invite_token_hash = some v.token_hash
              ∧ v.target.kind = .organization ∧ v.revoked_at = none ∧ s.now < v.expires_at
              ∧ 0 < v.used_count ∧ v.xmin = s.xid then some i else none
      | _, _ => none).isEmpty

def organization_members_update_using (o : OrganizationId) (a : ActorId) : Bool :=
  fukulow_active_organizations s db o || s.actor_id = some a

def organization_members_update_check (o : OrganizationId) (a : ActorId) (new : MemberRow) : Bool :=
  fukulow_active_organizations s db o
    || (s.actor_id = some a && new.status = .left && new.display_name = none)

def teams_select (r : TeamRow) : Bool := fukulow_active_organizations s db r.organization_id

def teams_insert (r : TeamRow) : Bool := fukulow_active_organizations s db r.organization_id

def team_members_select (a : ActorId) (r : TeamMemberRow) : Bool :=
  fukulow_active_organizations s db r.organization_id || s.actor_id = some a

def team_members_insert (r : TeamMemberRow) : Bool :=
  fukulow_active_organizations s db r.organization_id

def team_members_update (r : TeamMemberRow) : Bool :=
  fukulow_active_organizations s db r.organization_id

def team_members_delete (a : ActorId) (r : TeamMemberRow) : Bool :=
  fukulow_active_organizations s db r.organization_id || s.actor_id = some a

def channels_select (r : ChannelRow) : Bool := fukulow_active_organizations s db r.organization_id

def channels_insert (r : ChannelRow) : Bool := fukulow_active_organizations s db r.organization_id

def channels_update (r : ChannelRow) : Bool := fukulow_active_organizations s db r.organization_id

/-- `channel_id IN (SELECT id FROM public.channels)`, itself under row security. -/
def channel_visible (c : ChannelId) : Bool := (db.channel c).any fun r => channels_select s db r

def channel_members_select (c : ChannelId) (a : ActorId) : Bool :=
  channel_visible s db c || s.actor_id = some a

def channel_members_insert (c : ChannelId) : Bool := channel_visible s db c

def channel_members_delete (c : ChannelId) (a : ActorId) : Bool :=
  channel_visible s db c || s.actor_id = some a

def messages_select (r : MessageRow) : Bool := fukulow_active_organizations s db r.organization_id

def messages_insert (r : MessageRow) : Bool := fukulow_active_organizations s db r.organization_id

def invites_select (r : InviteRow) : Bool :=
  fukulow_active_organizations s db r.organization_id || s.invite_token_hash = some r.token_hash

def invites_insert (r : InviteRow) : Bool := fukulow_active_organizations s db r.organization_id

def invites_update (r : InviteRow) : Bool :=
  fukulow_active_organizations s db r.organization_id || s.invite_token_hash = some r.token_hash

def actors_select (a : ActorId) : Bool :=
  s.actor_id = some a || !(visible_memberships s db a).isEmpty

def actors_update (a : ActorId) : Bool :=
  s.actor_id = some a || !(visible_memberships s db a).isEmpty

def users_select (a : ActorId) (r : UserRow) : Bool :=
  s.actor_id = some a || s.sign_in_email.any fun e => lower r.email = lower e

def users_insert (a : ActorId) : Bool := s.actor_id = some a

def users_delete (a : ActorId) : Bool := s.actor_id = some a

def sessions_select (r : SessionRow) : Bool :=
  s.actor_id = some r.actor_id || s.session_token_hash = some r.token_hash

def sessions_insert (r : SessionRow) : Bool := s.actor_id = some r.actor_id

def sessions_update (r : SessionRow) : Bool := s.actor_id = some r.actor_id

/-- `audit_events_insert` as migration 5 leaves it: a member's organization; or the
departing actor's own record where it still has a membership; or where its own listing
still names the channel and the organization. -/
def audit_events_insert (row : AuditRow) : Bool :=
  fukulow_active_organizations s db row.organization_id
    || (own && (row.event.action = "organization.member.left"
            || ((row.event.action = "team.member.removed"
                  || row.event.action = "channel.member.removed") && left_service))
        && s.actor_id.any fun a => (db.member row.organization_id a).isSome)
    || (own && row.event.action = "channel.member.removed" && left_service
        && s.actor_id.any fun a => !(db.rows.select (β := ChannelId) fun
          | .channelMember c a', m =>
              if a' = a ∧ m.organization_id = row.organization_id
                  ∧ row.event.field "channel_id" = some (.uuid c.uuid) then some c else none
          | _, _ => none).isEmpty)
where
  own : Bool := s.actor_id = some row.actor_id && row.event.target_type = "actor"
    && s.actor_id.map Identifier.uuid = some row.event.target_id
  left_service : Bool := row.event.field "reason" = some (.text "left_service")

end Policies

/-! ## Triggers -/

/-- `fukulow_guard_inactive_member_role`: does it let `old` become `new`? -/
def fukulow_guard_inactive_member_role (s : Settings) (a : ActorId) (old new : MemberRow) : Bool :=
  !(old.status ≠ .active && s.actor_id = some a && new.role ≠ old.role)

/-- `fukulow_guard_invite_use` on an `INSERT`. -/
def fukulow_guard_invite_insert (new : InviteRow) : Bool := new.used_count = 0

/-- `fukulow_guard_invite_use` on an `UPDATE`. -/
def fukulow_guard_invite_use (s : Settings) (old new : InviteRow) : Bool :=
  if new.used_count ≠ old.used_count then
    !(new.used_count ≠ old.used_count + 1 || old.max_uses ≤ old.used_count
      || old.revoked_at ≠ none || old.expires_at ≤ s.now || new.revoked_at ≠ old.revoked_at)
  else !(old.revoked_at ≠ none || new.revoked_at = none)

/-! ## Reading the policies as propositions -/

/-- The definer function asks for the active memberships of the actor that is set, whatever the
policies show. -/
@[simp] theorem active_organizations_actor {s : Settings} {db : Database} {o : OrganizationId}
    {a : ActorId} (h : s.actor_id = some a) :
    fukulow_active_organizations s db o = db.active o a := by
  simp [fukulow_active_organizations, h]

end Fukulow
