/-
`operations/mod.rs`, `operations/authorization.rs` and `Event::write`: the locks and
reads every operation is made of.
-/
import Fukulow.Operations.Errors

set_option autoImplicit false

namespace Fukulow

open Txn (LockMode)

/-- A transaction's start time and id. -/
structure Transaction where
  now : Instant
  xid : ℕ
deriving DecidableEq

/-- `context::begin`. -/
def begin (tx : Transaction) (context : Context) : Settings :=
  set_context { now := tx.now, xid := tx.xid } context

inductive OrganizationLock where
  | update
  | share

def OrganizationLock.mode : OrganizationLock → LockMode
  | update => .update
  | share => .share

/-- `lock_organization`: was the organization there, and visible, to be locked? -/
def lock_organization (s : Settings) (organization : OrganizationId) (lock : OrganizationLock) :
    Sql SqlError Bool := do
  let row ← select_locking (.organization organization) lock.mode
    (fun db _ => organizations_select s db organization && organizations_update s db organization)
    (fun _ => true)
  return row.isSome

/-- `active_owners`, as row security shows them. -/
def active_owners (s : Settings) (organization : OrganizationId) : Sql SqlError (List ActorId) :=
  select fun db => db.rows.select fun
    | .member o a, r =>
        if o = organization ∧ r.role = .owner ∧ r.status = .active
            ∧ organization_members_select s db o a = true then some a else none
    | _, _ => none

/-- `lock_actor`: share-lock the target and the performer, in the order of their ids, as
far as row security shows them. `none` when the target's row was not there to be locked,
else whether it has departed. -/
def lock_actor (s : Settings) (actor performed_by : ActorId) : Sql SqlError (Option Bool) := do
  let db ← snapshot
  let ids := ([actor, performed_by].dedup.insertionSort (· ≤ ·)).filter fun a =>
    (db.actor a).isSome && actors_select s db a && actors_update s db a
  let rows ← lock_rows Key.actor .share (fun newest a => (a, newest.departed a)) ids
  return (rows.find? fun row => row.1 = actor).map Prod.snd

/-- `membership::member`. -/
def member (s : Settings) (organization : OrganizationId) (actor : ActorId) :
    Sql SqlError (Option (OrganizationRole × MemberStatus)) :=
  select fun db => ((db.member organization actor).filter fun _ =>
    organization_members_select s db organization actor).map fun r => (r.role, r.status)

inductive Access where
  | allowed
  | forbidden
  | notAMember

/-- `authorization::authorize`: decide a capability from the membership row it locks. -/
def authorize (s : Settings) (actor : ActorId) (organization : OrganizationId)
    (capability : Capability) : Sql SqlError Access := do
  let row ← select_locking (.member organization actor) .share
    (fun db _ => organization_members_select s db organization actor
      && organization_members_update_using s db organization actor)
    (fun r => r.status = .active)
  match row with
  | none => return .notAMember
  | some r => return if r.role.holds capability then .allowed else .forbidden

/-- `Event::write`. -/
def Event.write (e : Event) (s : Settings) (organization : OrganizationId)
    (performed_by : ActorId) : Sql SqlError Unit := do
  let row : AuditRow := ⟨organization, performed_by, e⟩
  let db ← snapshot
  ensure (audit_events_insert s db row) .insufficientPrivilege
  emit (.log row)
  check_reference ⟨.organization organization, fun _ => true⟩
  check_reference ⟨.actor performed_by, fun _ => true⟩

end Fukulow
