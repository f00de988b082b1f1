/-
The calls of the crate `db` as one transaction system.

A `Call` is an operation with its arguments, the ids `Uuid::now_v7()` gave it, and what
its token source returned; a `Request` adds the transaction's start time and id. The
engine puts PostgreSQL's row locks under the programs of `Operations`: each transaction
also holds its own id from its start, so two never share one, and no finished one is used
again. `engine allowed` runs the calls `allowed` admits and no others.
-/
import Fukulow.Operations.Leaving
import Fukulow.Operations.Channels
import Fukulow.Operations.Messages
import Fukulow.Operations.Invites
import Fukulow.Operations.Sessions
import Fukulow.Txn.RelyGuarantee

set_option autoImplicit false

namespace Fukulow

open Txn (LockMode Prog)

inductive Call where
  | create_person (email password_hash display_name : Text) (actor : ActorId)
  | create_organization (creator : ActorId) (name slug : Text) (organization : OrganizationId)
  | change_member_role (performed_by : ActorId) (organization_id : OrganizationId)
      (actor_id : ActorId) (role : OrganizationRole)
  | suspend_member (performed_by : ActorId) (organization_id : OrganizationId) (actor_id : ActorId)
  | reactivate_member (performed_by : ActorId) (organization_id : OrganizationId)
      (actor_id : ActorId)
  | leave_service (actor_id : ActorId)
  | create_team (performed_by : ActorId) (organization_id : OrganizationId) (name : Text)
      (team : TeamId)
  | add_team_member (performed_by : ActorId) (organization_id : OrganizationId) (team_id : TeamId)
      (actor_id : ActorId) (role : TeamRole)
  | change_team_member_role (performed_by : ActorId) (organization_id : OrganizationId)
      (team_id : TeamId) (actor_id : ActorId) (role : TeamRole)
  | remove_team_member (performed_by : ActorId) (organization_id : OrganizationId)
      (team_id : TeamId) (actor_id : ActorId)
  | create_channel (performed_by : ActorId) (organization_id : OrganizationId)
      (scope : ChannelScope) (name : Text) (channel : ChannelId)
  | add_channel_member (performed_by : ActorId) (organization_id : OrganizationId)
      (channel_id : ChannelId) (actor_id : ActorId)
  | post_message (organization_id : OrganizationId) (channel_id : ChannelId) (sender : ActorId)
      (id : MessageId) (body : Text)
  | messages_before (actor : ActorId) (organization_id : OrganizationId) (channel_id : ChannelId)
      (before : Option ChannelSeq) (limit : ℕ)
  | messages_after (actor : ActorId) (organization_id : OrganizationId) (channel_id : ChannelId)
      (after : ChannelSeq) (limit : ℕ)
  | create_invite (performed_by : ActorId) (organization : OrganizationId)
      (new_token : Option (Text × TokenHash)) (expires_at : Instant) (max_uses : ℤ) (id : InviteId)
  | revoke_invite (performed_by : ActorId) (organization : OrganizationId)
      (invite : Option InviteId)
  | invite_is_usable (token_hash : TokenHash)
  | accept_invite (token_hash : TokenHash) (email password_hash display_name : Text)
      (actor : ActorId)
  | sign_in (email : Text) (verify : Text → Bool) (new_token : Option (Text × TokenHash))
      (expires_at : Instant) (id : SessionId)
  | resolve_session (token_hash : TokenHash)
  | revoke_session (actor : ActorId) (token_hash : TokenHash)
  | me (actor : ActorId)

/-- A call in its transaction. -/
structure Request where
  call : Call
  tx : Transaction

/-- What a call returns, by operation. -/
inductive Reply where
  | create_person (result : Except CreatePersonError ActorId)
  | create_organization (result : Except CreateOrganizationError OrganizationId)
  | change_member_role (result : Except ChangeMemberRoleError Unit)
  | suspend_member (result : Except SuspendMemberError Unit)
  | reactivate_member (result : Except ReactivateMemberError Unit)
  | leave_service (result : Except LeaveServiceError Unit)
  | create_team (result : Except CreateTeamError TeamId)
  | add_team_member (result : Except AddTeamMemberError Unit)
  | change_team_member_role (result : Except ChangeTeamMemberRoleError Unit)
  | remove_team_member (result : Except RemoveTeamMemberError Unit)
  | create_channel (result : Except CreateChannelError ChannelId)
  | add_channel_member (result : Except AddChannelMemberError Unit)
  | post_message (result : Except PostMessageError PostMessage)
  | messages_before (result : Except MessagesBeforeError (List Message))
  | messages_after (result : Except MessagesAfterError (List Message))
  | create_invite (result : Except CreateInviteError (InviteId × Text))
  | revoke_invite (result : Except RevokeInviteError Unit)
  | invite_is_usable (result : Except AccessError Bool)
  | accept_invite (result : Except AcceptInviteError (ActorId × OrganizationId))
  | sign_in (result : Except SignInError (ActorId × Text))
  | resolve_session (result : Except SessionError ActorId)
  | revoke_session (result : Except SessionError Unit)
  | me (result : Except SessionError Me)

/-- The program of a call. -/
def Request.body (r : Request) : Sql Reply Reply :=
  match r.call with
  | .create_person email hash name actor =>
      (create_person { now := r.tx.now, xid := r.tx.xid } email hash name actor).answer
        .create_person
  | .create_organization creator name slug o =>
      (create_organization r.tx creator name slug o).answer .create_organization
  | .change_member_role p o a role => (change_member_role r.tx p o a role).answer .change_member_role
  | .suspend_member p o a => (suspend_member r.tx p o a).answer .suspend_member
  | .reactivate_member p o a => (reactivate_member r.tx p o a).answer .reactivate_member
  | .leave_service a => (leave_service r.tx a).answer .leave_service
  | .create_team p o name t => (create_team r.tx p o name t).answer .create_team
  | .add_team_member p o t a role => (add_team_member r.tx p o t a role).answer .add_team_member
  | .change_team_member_role p o t a role =>
      (change_team_member_role r.tx p o t a role).answer .change_team_member_role
  | .remove_team_member p o t a => (remove_team_member r.tx p o t a).answer .remove_team_member
  | .create_channel p o scope name c => (create_channel r.tx p o scope name c).answer .create_channel
  | .add_channel_member p o c a => (add_channel_member r.tx p o c a).answer .add_channel_member
  | .post_message o c sender id body => (post_message r.tx o c sender id body).answer .post_message
  | .messages_before a o c before limit =>
      (messages_before r.tx a o c before limit).answer .messages_before
  | .messages_after a o c after limit =>
      (messages_after r.tx a o c after limit).answer .messages_after
  | .create_invite p o token expires n i =>
      (create_invite r.tx p o (fun _ => token) expires n i).answer .create_invite
  | .revoke_invite p o i => (revoke_invite r.tx p o i).answer .revoke_invite
  | .invite_is_usable h => (invite_is_usable r.tx h).answer .invite_is_usable
  | .accept_invite h email hash name a =>
      (accept_invite r.tx h email hash name a).answer .accept_invite
  | .sign_in email verify token expires i =>
      (sign_in r.tx email verify (fun _ => token) expires i).answer .sign_in
  | .resolve_session h => (resolve_session r.tx h).answer .resolve_session
  | .revoke_session a h => (revoke_session r.tx a h).answer .revoke_session
  | .me a => (me r.tx a).answer .me

abbrev World : Type := Txn.World Database Write Resource LockMode Request Reply
abbrev System : Type := Txn.System Database Write Resource LockMode Request Reply
abbrev Outcome : Type := Txn.Outcome Write Reply
abbrev Entry : Type := Txn.Entry Database Write Resource LockMode Request Reply

/-- The transaction system of the calls that `allowed` admits. -/
def engine (allowed : Call → Bool) : Txn.Engine Database Write Resource LockMode Request Reply where
  apply := Write.apply
  conflict := LockMode.conflicts
  conflict_comm := LockMode.conflicts_comm
  body := Request.body
  claims r := [(.transaction r.tx.xid, .update)]
  mayStart w r := allowed r.call && w.history.all fun e => e.call.tx.xid ≠ r.tx.xid

/-- All operations. -/
abbrev anyCall : Call → Bool := fun _ => true

/-- The database before anything happened. -/
def World.empty : World := ⟨Database.empty, []⟩

/-! ## Keys for concrete runs -/

/-- One digit, 64 times. -/
def repeated (c : Char) (h : ('0' ≤ c ∧ c ≤ '9') ∨ ('a' ≤ c ∧ c ≤ 'f')) : TokenHash where
  as_str := List.replicate 64 c
  length_eq := List.length_replicate
  lower := fun _ hd => List.eq_of_mem_replicate hd ▸ h

def first_key : TokenHash := repeated 'a' (by decide)

def second_key : TokenHash := repeated 'b' (by decide)

@[simp] theorem second_key_ne : second_key ≠ first_key := by decide

end Fukulow
