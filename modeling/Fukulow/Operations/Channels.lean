/-
`operations/channels.rs`: creating channels and listing their members.
-/
import Fukulow.Operations.Teams

set_option autoImplicit false

namespace Fukulow

/-- The partial unique index a new channel's name goes into. -/
def channel_name_index (organization : OrganizationId) (scope : ChannelScope) (name : Text) :
    UniqueIndex :=
  match scope with
  | .team team =>
    { entry := .teamChannelName team (lower name)
      constraint := "channels_team_name_key"
      taken := fun db => !(db.rows.select (β := ChannelId) fun
        | .channel c, r => if r.scope = .team team ∧ lower r.name = lower name then some c else none
        | _, _ => none).isEmpty }
  | .organization =>
    { entry := .organizationChannelName organization (lower name)
      constraint := "channels_organization_name_key"
      taken := fun db => !(db.rows.select (β := ChannelId) fun
        | .channel c, r =>
            if r.scope = .organization ∧ r.organization_id = organization
                ∧ lower r.name = lower name then some c else none
        | _, _ => none).isEmpty }

/-- The foreign keys of a new channel: the team's is skipped when there is no team. -/
def channel_references (organization : OrganizationId) : ChannelScope → List Reference
  | .organization => [⟨.organization organization, fun _ => true⟩]
  | .team team =>
    [⟨.organization organization, fun _ => true⟩,
      ⟨.team team, fun r => r.organization_id = organization⟩]

def create_channel (tx : Transaction) (performed_by : ActorId) (organization_id : OrganizationId)
    (scope : ChannelScope) (name : Text) (channel : ChannelId) :
    Sql CreateChannelError ChannelId := do
  let s := begin tx (.actor performed_by)
  let _ ← lock_actor s performed_by performed_by
  if !(← lock_organization s organization_id .update) then .throw .notFound
  else do
    match scope with
    | .organization => pure ()
    | .team team => ensure (← select_team s organization_id team) CreateChannelError.notFound
    let row : ChannelRow := ⟨organization_id, scope, name, 0⟩
    (insert (.channel channel) row "channels_pkey"
      (fun db =>
        if !storable name then .error .invalidText
        else if !channels_insert s db row then .error .insufficientPrivilege
        else admit_if (1 ≤ name.length && name.length ≤ 80) (.check "channels_name_check"))
      [channel_name_index organization_id scope name]
      (channel_references organization_id scope)).mapError fun e =>
        if e.constraint "channels_team_name_key" || e.constraint "channels_organization_name_key"
        then CreateChannelError.nameTaken else .database e
    (Event.channel_created channel scope).write s organization_id performed_by
    return channel

def add_channel_member (tx : Transaction) (performed_by : ActorId)
    (organization_id : OrganizationId) (channel_id : ChannelId) (actor_id : ActorId) :
    Sql AddChannelMemberError Unit := do
  let s := begin tx (.actor performed_by)
  let departed ← lock_actor s actor_id performed_by
  if !(← lock_organization s organization_id .update) then .throw .notFound
  else match ← select fun db => (db.channel channel_id).filter fun r =>
      r.organization_id = organization_id && channels_select s db r with
  | none => .throw .notFound
  | some row =>
    if row.scope = .organization then .throw .organizationScoped
    else match departed with
    | none => .throw .notFound
    | some true => .throw .actorDeparted
    | some false => do
      -- No row is inserted when the channel is not visible to the statement.
      let inserted ← insert_from
        (fun db => (db.channel channel_id).any fun r =>
          r.organization_id = organization_id && channels_select s db r)
        (.channelMember channel_id actor_id) ⟨organization_id⟩
        (fun db => admit_if (channel_members_insert s db channel_id) .insufficientPrivilege) []
        [⟨.actor actor_id, fun _ => true⟩,
          ⟨.channel channel_id, fun r => r.organization_id = organization_id
            && r.scope ≠ .organization⟩]
      -- `channel_members_pkey`
      ensure (inserted ≠ some false) AddChannelMemberError.alreadyMember
      (Event.channel_member_added actor_id channel_id).write s organization_id performed_by

end Fukulow
