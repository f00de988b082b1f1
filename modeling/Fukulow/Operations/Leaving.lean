/-
`operations/leaving.rs`: leaving the service.
-/
import Fukulow.Operations.Membership

set_option autoImplicit false

namespace Fukulow

/-- The organizations that are visible to `actor` and where it is an active member,
`ORDER BY id`. -/
def active_memberships (s : Settings) (db : Database) (actor : ActorId) : List OrganizationId :=
  db.rows.selectSorted fun
    | .member o a, r =>
        if a = actor ∧ r.status = .active ∧ organization_members_select s db o a = true
            ∧ organizations_select s db o = true ∧ organizations_update s db o = true
        then some o else none
    | _, _ => none

/-- The memberships of `actor` with their statuses, `ORDER BY organization_id`. -/
def memberships_of (s : Settings) (db : Database) (actor : ActorId) :
    List (OrganizationId × MemberStatus) :=
  (db.rows.selectSorted fun
    | .member o a, _ =>
        if a = actor ∧ organization_members_select s db o a = true then some o else none
    | _, _ => none).filterMap fun o => (db.member o actor).map fun r => (o, r.status)

/-- The organizations of the channels that list `actor`, `DISTINCT`, `ORDER BY`. -/
def listing_organizations (s : Settings) (db : Database) (actor : ActorId) :
    List OrganizationId :=
  db.rows.selectSorted fun
    | .channelMember c a, r =>
        if a = actor ∧ channel_members_select s db c a = true then some r.organization_id else none
    | _, _ => none

/-- The channels of `organization` that list `actor`, `ORDER BY channel_id`. -/
def listings (s : Settings) (db : Database) (organization : OrganizationId) (actor : ActorId) :
    List ChannelId :=
  db.rows.selectSorted fun
    | .channelMember c a, r =>
        if a = actor ∧ r.organization_id = organization ∧ channel_members_select s db c a = true
        then some c else none
    | _, _ => none

/-- The teams of `organization` that have `actor` as a member. -/
def teams_of (s : Settings) (db : Database) (organization : OrganizationId) (actor : ActorId) :
    List TeamId :=
  db.rows.select fun
    | .teamMember t a, r =>
        if a = actor ∧ r.organization_id = organization ∧ team_members_select s db a r = true
            ∧ team_members_delete s db a r = true then some t else none
    | _, _ => none

def leave_organization (s : Settings) (organization : OrganizationId) (actor : ActorId) :
    Sql SqlError Unit := do
  let removed ← delete_where (fun db => teams_of s db organization actor)
    (fun team => .teamMember team actor)
    fun db team => (db.teamMember team actor).any fun r => r.organization_id = organization
  removed.forM fun team =>
    (Event.team_member_removed actor team .leftService).write s organization actor

/-- Audit before deleting: an outside actor's record is admitted only while its own listing
still names the channel and the organization. -/
def leave_channels (s : Settings) (organization : OrganizationId) (actor : ActorId) :
    Sql SqlError Unit := do
  let found ← select fun db => listings s db organization actor
  found.forM fun channel => (Event.channel_member_left actor channel).write s organization actor
  let _ ← delete_where
    (fun db => (listings s db organization actor).filter fun c => channel_members_delete s db c actor)
    (fun channel => .channelMember channel actor)
    fun db channel => (db.channelMember channel actor).any fun r => r.organization_id = organization

/-- `DELETE FROM users` and its cascade to `sessions`, which row security does not filter. -/
def delete_user (s : Settings) (actor : ActorId) : Sql SqlError Unit := do
  let deleted ← delete_where
    (fun db => if (db.user actor).any fun r => users_select s actor r && users_delete s actor
      then [actor] else [])
    Key.user fun db a => (db.user a).isSome
  if !deleted.isEmpty then
    let _ ← delete_where
      (fun db => db.rows.select fun
        | .session i, r => if r.actor_id = actor then some i else none
        | _, _ => none)
      Key.session fun db i => (db.session i).any fun r => r.actor_id = actor

def leave_service (tx : Transaction) (actor_id : ActorId) : Sql LeaveServiceError Unit := do
  let s := begin tx (.actor actor_id)
  match ← select_locking (.actor actor_id) .update
      (fun db _ => actors_select s db actor_id && actors_update s db actor_id)
      (fun _ => true) with
  | none => .throw .notFound
  | some actor =>
    if actor.deleted_at.isSome then .throw .notFound
    else do
      -- The actor lock closes reactivation; only active organizations need the owner lock.
      let db ← snapshot
      let organizations ← lock_rows Key.organization .update (fun _ o => o)
        (active_memberships s db actor_id)
      organizations.forM fun organization => do
        let owners ← active_owners s organization
        ensure (check_owner_change owners (.leave actor_id))
          (LeaveServiceError.lastOwner organization)
      let memberships ← select fun db => memberships_of s db actor_id
      let channel_organizations ← select fun db => listing_organizations s db actor_id
      memberships.forM fun row => do
        leave_organization s row.1 actor_id
        if row.2 ≠ .left then
          (Event.member_left actor_id).write s row.1 actor_id
      channel_organizations.forM fun organization => leave_channels s organization actor_id
      -- The next statement after a status transition loses ordinary tenant visibility.
      memberships.forM fun row => update_member s row.1 actor_id fun r =>
        { r with status := .left, display_name := none }
      delete_user s actor_id
      let _ ← update (.actor actor_id)
        (fun db _ => actors_select s db actor_id && actors_update s db actor_id) (fun _ => true)
        (fun db old =>
          if actors_update s db actor_id then
            .ok { old with display_name := none, deleted_at := some s.now }
          else .error .insufficientPrivilege)
      return ()

end Fukulow
