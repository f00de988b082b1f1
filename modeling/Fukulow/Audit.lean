/-
`crates/db/src/audit.rs`: the audit records, one typed constructor per action.

The source builds each record by a function whose parameters are ids and
enumerations, so a record is exactly a choice of function and its arguments; the
columns stored are computed from it as the functions compute them.
-/
import Fukulow.Domain

set_option autoImplicit false

namespace Fukulow

inductive RemovalReason where
  | removed
  | leftService
deriving DecidableEq, Repr

def RemovalReason.as_str : RemovalReason → String
  | removed => "removed"
  | leftService => "left_service"

/-- What a metadata value can be. -/
inductive Json where
  | text (value : String)
  | uuid (value : Uuid)
  | number (value : ℤ)
deriving DecidableEq

/-- `Event`, by the function that builds it. -/
inductive Event where
  | invite_created (organization : OrganizationId) (invite : InviteId) (max_uses : ℤ)
  | invite_revoked (organization : OrganizationId) (invite : InviteId)
  | member_invited (actor : ActorId) (invite : InviteId)
  | organization_created (id : OrganizationId)
  | member_added (id : ActorId) (role : OrganizationRole)
  | member_role_changed (id : ActorId) (from_ to_ : OrganizationRole)
  | member_suspended (id : ActorId)
  | member_reactivated (id : ActorId)
  | member_left (id : ActorId)
  | team_created (id : TeamId)
  | team_member_added (id : ActorId) (team : TeamId) (role : TeamRole)
  | team_member_role_changed (id : ActorId) (team : TeamId) (from_ to_ : TeamRole)
  | team_member_removed (id : ActorId) (team : TeamId) (reason : RemovalReason)
  | channel_created (id : ChannelId) (scope : ChannelScope)
  | channel_member_added (id : ActorId) (channel : ChannelId)
  | channel_member_left (id : ActorId) (channel : ChannelId)
deriving DecidableEq

namespace Event

def action : Event → String
  | invite_created .. => "invite.created"
  | invite_revoked .. => "invite.revoked"
  | member_invited .. | member_added .. => "organization.member.added"
  | organization_created .. => "organization.created"
  | member_role_changed .. => "organization.member.role_changed"
  | member_suspended .. => "organization.member.suspended"
  | member_reactivated .. => "organization.member.reactivated"
  | member_left .. => "organization.member.left"
  | team_created .. => "team.created"
  | team_member_added .. => "team.member.added"
  | team_member_role_changed .. => "team.member.role_changed"
  | team_member_removed .. => "team.member.removed"
  | channel_created .. => "channel.created"
  | channel_member_added .. => "channel.member.added"
  | channel_member_left .. => "channel.member.removed"

def target_type : Event → String
  | invite_created .. | invite_revoked .. | organization_created .. => "organization"
  | team_created .. => "team"
  | channel_created .. => "channel"
  | _ => "actor"

def target_id : Event → Uuid
  | invite_created o .. | invite_revoked o .. | organization_created o => o.uuid
  | team_created t => t.uuid
  | channel_created c _ => c.uuid
  | member_invited a _ | member_added a _ | member_role_changed a .. | member_suspended a
  | member_reactivated a | member_left a | team_member_added a .. | team_member_role_changed a ..
  | team_member_removed a .. | channel_member_added a _ | channel_member_left a _ => a.uuid

def metadata : Event → List (String × Json)
  | invite_created _ i n =>
      [("invite_id", .uuid i.uuid), ("kind", .text InviteKind.organization.as_str),
        ("max_uses", .number n)]
  | invite_revoked _ i => [("invite_id", .uuid i.uuid)]
  | member_invited _ i =>
      [("role", .text OrganizationRole.member.as_str), ("invite_id", .uuid i.uuid)]
  | member_added _ r => [("role", .text r.as_str)]
  | member_role_changed _ r r' => [("from", .text r.as_str), ("to", .text r'.as_str)]
  | team_member_added _ t r => [("team_id", .uuid t.uuid), ("role", .text r.as_str)]
  | team_member_role_changed _ t r r' =>
      [("team_id", .uuid t.uuid), ("from", .text r.as_str), ("to", .text r'.as_str)]
  | team_member_removed _ t reason => [("team_id", .uuid t.uuid), ("reason", .text reason.as_str)]
  | channel_created _ scope =>
      match scope with
      | .organization => [("scope", .text scope.as_str)]
      | .team t => [("scope", .text scope.as_str), ("team_id", .uuid t.uuid)]
  | channel_member_added _ c => [("channel_id", .uuid c.uuid)]
  | channel_member_left _ c =>
      [("channel_id", .uuid c.uuid), ("reason", .text RemovalReason.leftService.as_str)]
  | organization_created _ | member_suspended _ | member_reactivated _ | member_left _
  | team_created _ => []

/-- `metadata->>'key'`. -/
def field (e : Event) (key : String) : Option Json := e.metadata.lookup key

/-- The actor a record is about, for the records whose target is an actor. -/
def target_actor (e : Event) : Option ActorId :=
  if e.target_type = "actor" then some ⟨e.target_id⟩ else none

end Event

/-- A row of `audit_events`: the organization, the actor who performed it, the event. -/
structure AuditRow where
  organization_id : OrganizationId
  actor_id : ActorId
  event : Event
deriving DecidableEq

/-- What is stored of it, beside a new id. -/
structure AuditColumns where
  organization_id : OrganizationId
  actor_id : ActorId
  action : String
  target_type : String
  target_id : Uuid
  metadata : List (String × Json)
deriving DecidableEq

/-- The values that `Event::write` binds. -/
def AuditRow.columns (row : AuditRow) : AuditColumns where
  organization_id := row.organization_id
  actor_id := row.actor_id
  action := row.event.action
  target_type := row.event.target_type
  target_id := row.event.target_id
  metadata := row.event.metadata

end Fukulow
