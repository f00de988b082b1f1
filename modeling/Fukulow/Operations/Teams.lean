/-
`operations/teams.rs`: creating teams and their memberships.
-/
import Fukulow.Operations.Locks

set_option autoImplicit false

namespace Fukulow

/-- `SELECT id FROM teams WHERE organization_id = $1 AND id = $2`. -/
def select_team (s : Settings) (organization : OrganizationId) (team : TeamId) :
    Sql SqlError Bool :=
  select fun db => (db.team team).any fun r => r.organization_id = organization && teams_select s db r

def create_team (tx : Transaction) (performed_by : ActorId) (organization_id : OrganizationId)
    (name : Text) (team : TeamId) : Sql CreateTeamError TeamId := do
  let s := begin tx (.actor performed_by)
  let _ ← lock_actor s performed_by performed_by
  if !(← lock_organization s organization_id .update) then .throw .notFound
  else do
    let row : TeamRow := ⟨organization_id, name⟩
    insert (.team team) row "teams_pkey"
      (fun db =>
        if !storable name then .error .invalidText
        else admit_if (teams_insert s db row) .insufficientPrivilege)
      [] [⟨.organization organization_id, fun _ => true⟩]
    (Event.team_created team).write s organization_id performed_by
    return team

def add_team_member (tx : Transaction) (performed_by : ActorId) (organization_id : OrganizationId)
    (team_id : TeamId) (actor_id : ActorId) (role : TeamRole) : Sql AddTeamMemberError Unit := do
  let s := begin tx (.actor performed_by)
  let departed ← lock_actor s actor_id performed_by
  if !(← lock_organization s organization_id .update) then .throw .notFound
  else do
    let team ← select_team s organization_id team_id
    let found ← member s organization_id actor_id
    if !team then .throw .notFound
    else match found with
    | none => .throw .notFound
    | some (_, status) =>
      if departed = some true then .throw .actorDeparted
      else if status ≠ .active then .throw .notAnActiveMember
      else do
        let row : TeamMemberRow := ⟨organization_id, role⟩
        let inserted ← insert_or_nothing (.teamMember team_id actor_id) row
          (fun db => admit_if (team_members_insert s db row) .insufficientPrivilege) []
          [⟨.actor actor_id, fun _ => true⟩, ⟨.organization organization_id, fun _ => true⟩,
            ⟨.team team_id, fun r => r.organization_id = organization_id⟩,
            ⟨.member organization_id actor_id, fun _ => true⟩]
        -- `team_members_pkey`
        ensure inserted AddTeamMemberError.alreadyMember
        (Event.team_member_added actor_id team_id role).write s organization_id performed_by

def change_team_member_role (tx : Transaction) (performed_by : ActorId)
    (organization_id : OrganizationId) (team_id : TeamId) (actor_id : ActorId) (role : TeamRole) :
    Sql ChangeTeamMemberRoleError Unit := do
  let s := begin tx (.actor performed_by)
  let _ ← lock_actor s performed_by performed_by
  if !(← lock_organization s organization_id .update) then .throw .notFound
  else match ← select fun db => (db.teamMember team_id actor_id).filter fun r =>
      r.organization_id = organization_id && team_members_select s db actor_id r with
  | none => .throw .notFound
  | some row =>
    let from_ := row.role
    if from_ = role then return ()
    else do
      -- The number of updated rows is not looked at.
      let _ ← update (.teamMember team_id actor_id)
        (fun db r => team_members_select s db actor_id r && team_members_update s db r)
        (fun r => r.organization_id = organization_id)
        (fun db old =>
          if team_members_update s db old then .ok { old with role := role }
          else .error .insufficientPrivilege)
      (Event.team_member_role_changed actor_id team_id from_ role).write s organization_id
        performed_by

def remove_team_member (tx : Transaction) (performed_by : ActorId)
    (organization_id : OrganizationId) (team_id : TeamId) (actor_id : ActorId) :
    Sql RemoveTeamMemberError Unit := do
  let s := begin tx (.actor performed_by)
  let _ ← lock_actor s performed_by performed_by
  if !(← lock_organization s organization_id .update) then .throw .notFound
  else do
    let deleted ← delete_where
      (fun db => if (db.teamMember team_id actor_id).any fun r =>
          r.organization_id = organization_id && team_members_select s db actor_id r
            && team_members_delete s db actor_id r then [team_id] else [])
      (fun team => .teamMember team actor_id)
      (fun db team => (db.teamMember team actor_id).any fun r => r.organization_id = organization_id)
    ensure (!deleted.isEmpty) RemoveTeamMemberError.notFound
    (Event.team_member_removed actor_id team_id .removed).write s organization_id performed_by

end Fukulow
