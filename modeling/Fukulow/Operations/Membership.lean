/-
`operations/membership.rs`: changing a role, suspending and reactivating.
-/
import Fukulow.Operations.Locks

set_option autoImplicit false

namespace Fukulow

/-- The `UPDATE organization_members` of this file: one row, new columns by `f`, past row
security and the inactive-role trigger. -/
def update_member (s : Settings) (organization : OrganizationId) (actor : ActorId)
    (f : MemberRow → MemberRow) : Sql SqlError Unit := do
  let _ ← update (.member organization actor)
    (fun db _ => organization_members_select s db organization actor
      && organization_members_update_using s db organization actor)
    (fun _ => true)
    (fun db old =>
      if fukulow_guard_inactive_member_role s actor old (f old)
          && organization_members_update_check s db organization actor (f old) then .ok (f old)
      else .error .insufficientPrivilege)

def change_member_role (tx : Transaction) (performed_by : ActorId)
    (organization_id : OrganizationId) (actor_id : ActorId) (role : OrganizationRole) :
    Sql ChangeMemberRoleError Unit := do
  let s := begin tx (.actor performed_by)
  let _ ← lock_actor s performed_by performed_by
  if !(← lock_organization s organization_id .update) then .throw .notFound
  else match ← member s organization_id actor_id with
  | none => .throw .notFound
  | some (from_, status) =>
    -- Someone who has left is no longer a member; the row stays only as history.
    if status = .left then .throw .notFound
    else if from_ = role then return ()
    else do
      if status = .active ∧ from_ = .owner ∧ role ≠ .owner then
        let owners ← active_owners s organization_id
        ensure (check_owner_change owners (.demote actor_id)) .lastOwner
      update_member s organization_id actor_id fun r => { r with role := role }
      (Event.member_role_changed actor_id from_ role).write s organization_id performed_by

def suspend_member (tx : Transaction) (performed_by : ActorId) (organization_id : OrganizationId)
    (actor_id : ActorId) : Sql SuspendMemberError Unit := do
  let s := begin tx (.actor performed_by)
  let _ ← lock_actor s performed_by performed_by
  if !(← lock_organization s organization_id .update) then .throw .notFound
  else match ← member s organization_id actor_id with
  | none => .throw .notFound
  | some (role, status) =>
    if status ≠ .active then .throw .notActive
    else do
      if role = .owner then
        let owners ← active_owners s organization_id
        ensure (check_owner_change owners (.suspend actor_id)) .lastOwner
      update_member s organization_id actor_id fun r => { r with status := .suspended }
      (Event.member_suspended actor_id).write s organization_id performed_by

def reactivate_member (tx : Transaction) (performed_by : ActorId)
    (organization_id : OrganizationId) (actor_id : ActorId) :
    Sql ReactivateMemberError Unit := do
  let s := begin tx (.actor performed_by)
  let departed ← lock_actor s actor_id performed_by
  if !(← lock_organization s organization_id .update) then .throw .notFound
  else match ← member s organization_id actor_id with
  | none => .throw .notFound
  | some (_, status) =>
    if departed = some true then .throw .actorDeparted
    else if status ≠ .suspended then .throw .notSuspended
    else do
      update_member s organization_id actor_id fun r => { r with status := .active }
      (Event.member_reactivated actor_id).write s organization_id performed_by

end Fukulow
