/-
`crates/db/src/operations/errors.rs`: one error type per operation, each with a
`database` variant, and the text each variant displays.
-/
import Fukulow.Statements

set_option autoImplicit false

namespace Fukulow

inductive CreatePersonError where
  | emailTaken | database (e : SqlError)
deriving DecidableEq

inductive CreateOrganizationError where
  | invalidSlug | slugTaken | actorNotFound | actorDeparted | database (e : SqlError)
deriving DecidableEq

inductive ChangeMemberRoleError where
  | notFound | lastOwner | database (e : SqlError)
deriving DecidableEq

inductive SuspendMemberError where
  | notFound | notActive | lastOwner | database (e : SqlError)
deriving DecidableEq

inductive ReactivateMemberError where
  | notFound | notSuspended | actorDeparted | database (e : SqlError)
deriving DecidableEq

inductive CreateTeamError where
  | notFound | database (e : SqlError)
deriving DecidableEq

inductive AddTeamMemberError where
  | notFound | notAnActiveMember | alreadyMember | actorDeparted | database (e : SqlError)
deriving DecidableEq

inductive ChangeTeamMemberRoleError where
  | notFound | database (e : SqlError)
deriving DecidableEq

inductive RemoveTeamMemberError where
  | notFound | database (e : SqlError)
deriving DecidableEq

inductive LeaveServiceError where
  | notFound | lastOwner (organization_id : OrganizationId) | database (e : SqlError)
deriving DecidableEq

inductive CreateChannelError where
  | notFound | nameTaken | database (e : SqlError)
deriving DecidableEq

inductive AddChannelMemberError where
  | notFound | organizationScoped | alreadyMember | actorNotFound | actorDeparted
  | database (e : SqlError)
deriving DecidableEq

inductive PostMessageError where
  | notFound | idConflict | invalidBody | database (e : SqlError)
deriving DecidableEq

inductive MessagesBeforeError where
  | notFound | database (e : SqlError)
deriving DecidableEq

inductive MessagesAfterError where
  | notFound | database (e : SqlError)
deriving DecidableEq

inductive SignInError where
  | invalidCredentials | tokenUnavailable | database (e : SqlError)
deriving DecidableEq

inductive SessionError where
  | noSession | database (e : SqlError)
deriving DecidableEq

inductive AccessError where
  | database (e : SqlError)
deriving DecidableEq

inductive CreateInviteError where
  | notAMember | forbidden | tokenUnavailable | database (e : SqlError)
deriving DecidableEq

inductive RevokeInviteError where
  | notAMember | forbidden | notFound | database (e : SqlError)
deriving DecidableEq

inductive AcceptInviteError where
  | inviteUnusable | emailTaken | database (e : SqlError)
deriving DecidableEq

instance : FromSql CreatePersonError := ⟨.database⟩
instance : FromSql CreateOrganizationError := ⟨.database⟩
instance : FromSql ChangeMemberRoleError := ⟨.database⟩
instance : FromSql SuspendMemberError := ⟨.database⟩
instance : FromSql ReactivateMemberError := ⟨.database⟩
instance : FromSql CreateTeamError := ⟨.database⟩
instance : FromSql AddTeamMemberError := ⟨.database⟩
instance : FromSql ChangeTeamMemberRoleError := ⟨.database⟩
instance : FromSql RemoveTeamMemberError := ⟨.database⟩
instance : FromSql LeaveServiceError := ⟨.database⟩
instance : FromSql CreateChannelError := ⟨.database⟩
instance : FromSql AddChannelMemberError := ⟨.database⟩
instance : FromSql PostMessageError := ⟨.database⟩
instance : FromSql MessagesBeforeError := ⟨.database⟩
instance : FromSql MessagesAfterError := ⟨.database⟩
instance : FromSql SignInError := ⟨.database⟩
instance : FromSql SessionError := ⟨.database⟩
instance : FromSql AccessError := ⟨.database⟩
instance : FromSql CreateInviteError := ⟨.database⟩
instance : FromSql RevokeInviteError := ⟨.database⟩
instance : FromSql AcceptInviteError := ⟨.database⟩

end Fukulow
