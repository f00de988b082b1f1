/-
The tables of `migrations/*.up.sql`: rows, keys, committed states and writes.

`Key` names one row of one table by its primary key and `Row` is the type of that
row's other columns, so the database is one keyed store and every fact about
writing a row is proved once for all tables. Columns no operation reads or writes
(`created_at` outside `messages`, ids of audit records) are left out.

`audit_events` has no `UPDATE`, `DELETE` or `SELECT` grant: it is a list that only
grows. `xmin`, the transaction that wrote the current version of a row, is a column
here, of the one table whose policies read it.
-/
import Fukulow.Audit
import Fukulow.Txn.RowLock
import Fukulow.Txn.Store

set_option autoImplicit false

namespace Fukulow

/-! ## Rows -/

structure ActorRow where
  type : ActorType
  display_name : Option Text
  deleted_at : Option Instant
deriving DecidableEq

structure UserRow where
  email : Text
  password_hash : Text
deriving DecidableEq

structure OrganizationRow where
  name : Text
  slug : Text
deriving DecidableEq

structure MemberRow where
  role : OrganizationRole
  status : MemberStatus
  display_name : Option Text
deriving DecidableEq

structure TeamRow where
  organization_id : OrganizationId
  name : Text
deriving DecidableEq

structure TeamMemberRow where
  organization_id : OrganizationId
  role : TeamRole
deriving DecidableEq

/-- `scope` and `team_id` together: the `CHECK` admits a team exactly for `team`. -/
structure ChannelRow where
  organization_id : OrganizationId
  scope : ChannelScope
  name : Text
  next_message_seq : ℕ
deriving DecidableEq

/-- `channel_scope` is fixed to `team` by its `CHECK`. -/
structure ChannelMemberRow where
  organization_id : OrganizationId
deriving DecidableEq

structure MessageRow where
  organization_id : OrganizationId
  channel_id : ChannelId
  channel_seq : ℕ
  sender_actor_id : ActorId
  body : Text
  created_at : Instant
deriving DecidableEq

/-- `kind` and `target_team_id` together: the `CHECK` fills the target exactly for
`team`. -/
inductive InviteTarget where
  | organization
  | team (target_team_id : TeamId)
deriving DecidableEq, Repr

def InviteTarget.kind : InviteTarget → InviteKind
  | organization => .organization
  | team _ => .team

structure InviteRow where
  organization_id : OrganizationId
  target : InviteTarget
  token_hash : TokenHash
  expires_at : Instant
  max_uses : ℤ
  used_count : ℤ
  revoked_at : Option Instant
  created_by_actor_id : ActorId
  xmin : ℕ
deriving DecidableEq

structure SessionRow where
  actor_id : ActorId
  token_hash : TokenHash
  expires_at : Instant
  revoked_at : Option Instant
deriving DecidableEq

/-! ## Keys and the database -/

/-- One row of one table, by primary key. -/
inductive Key where
  | actor (id : ActorId)
  | user (actor_id : ActorId)
  | organization (id : OrganizationId)
  | member (organization_id : OrganizationId) (actor_id : ActorId)
  | team (id : TeamId)
  | teamMember (team_id : TeamId) (actor_id : ActorId)
  | channel (id : ChannelId)
  | channelMember (channel_id : ChannelId) (actor_id : ActorId)
  | message (id : MessageId)
  | invite (id : InviteId)
  | session (id : SessionId)
deriving DecidableEq

/-- The columns of the row a key names. -/
@[reducible] def Row : Key → Type
  | .actor _ => ActorRow
  | .user _ => UserRow
  | .organization _ => OrganizationRow
  | .member _ _ => MemberRow
  | .team _ => TeamRow
  | .teamMember _ _ => TeamMemberRow
  | .channel _ => ChannelRow
  | .channelMember _ _ => ChannelMemberRow
  | .message _ => MessageRow
  | .invite _ => InviteRow
  | .session _ => SessionRow

/-- A committed state, or what one transaction sees. -/
structure Database where
  rows : Txn.Store Key Row
  audit_events : List AuditRow

namespace Database

def empty : Database := ⟨.empty, []⟩

variable (db : Database)

abbrev actor (a : ActorId) : Option ActorRow := db.rows.get (.actor a)
abbrev user (a : ActorId) : Option UserRow := db.rows.get (.user a)
abbrev organization (o : OrganizationId) : Option OrganizationRow := db.rows.get (.organization o)
abbrev member (o : OrganizationId) (a : ActorId) : Option MemberRow := db.rows.get (.member o a)
abbrev team (t : TeamId) : Option TeamRow := db.rows.get (.team t)
abbrev teamMember (t : TeamId) (a : ActorId) : Option TeamMemberRow := db.rows.get (.teamMember t a)
abbrev channel (c : ChannelId) : Option ChannelRow := db.rows.get (.channel c)
abbrev channelMember (c : ChannelId) (a : ActorId) : Option ChannelMemberRow :=
  db.rows.get (.channelMember c a)
abbrev message (m : MessageId) : Option MessageRow := db.rows.get (.message m)
abbrev invite (i : InviteId) : Option InviteRow := db.rows.get (.invite i)
abbrev session (s : SessionId) : Option SessionRow := db.rows.get (.session s)

/-- Does `a` have an active membership in `o`? -/
def active (o : OrganizationId) (a : ActorId) : Bool :=
  (db.member o a).any fun r => r.status = .active

/-- Is `a` an active owner of `o`? -/
def activeOwner (o : OrganizationId) (a : ActorId) : Bool :=
  (db.member o a).any fun r => r.status = .active ∧ r.role = .owner

/-- Has `a` left the service? -/
def departed (a : ActorId) : Bool := (db.actor a).any fun r => r.deleted_at.isSome

/-- Who is active, by the stored row. -/
theorem active_iff {db : Database} {o : OrganizationId} {a : ActorId} :
    db.active o a = true ↔ ∃ r, db.member o a = some r ∧ r.status = .active := by
  simp [active, Option.any_eq_true]

/-- Who is an active owner, by the stored row. -/
theorem activeOwner_iff {db : Database} {o : OrganizationId} {a : ActorId} :
    db.activeOwner o a = true ↔
      ∃ r, db.member o a = some r ∧ r.status = .active ∧ r.role = .owner := by
  simp [activeOwner, Option.any_eq_true]

/-- Who has departed, by the stored row. -/
theorem departed_iff {db : Database} {a : ActorId} :
    db.departed a = true ↔ ∃ r, db.actor a = some r ∧ r.deleted_at.isSome = true := by
  simp [departed, Option.any_eq_true]

end Database

/-! ## Writes -/

/-- A write of one transaction: a row's new version (`none` deletes it), or one more
audit record. -/
inductive Write where
  | put (k : Key) (r : Option (Row k))
  | log (row : AuditRow)

def Write.apply : Write → Database → Database
  | put k r, db => { db with rows := db.rows.put k r }
  | log row, db => { db with audit_events := db.audit_events ++ [row] }

@[simp] theorem Write.apply_put_rows (k : Key) (r : Option (Row k)) (db : Database) :
    ((put k r).apply db).rows = db.rows.put k r := rfl

@[simp] theorem Write.apply_put_audit (k : Key) (r : Option (Row k)) (db : Database) :
    ((put k r).apply db).audit_events = db.audit_events := rfl

@[simp] theorem Write.apply_log_rows (row : AuditRow) (db : Database) :
    ((log row).apply db).rows = db.rows := rfl

@[simp] theorem Write.apply_log_audit (row : AuditRow) (db : Database) :
    ((log row).apply db).audit_events = db.audit_events ++ [row] := rfl

/-! ## What can be locked -/

/-- The entries of the unique indexes beside the primary keys. -/
inductive UniqueEntry where
  | email (lower : Text)
  | slug (slug : Text)
  | inviteToken (hash : TokenHash)
  | sessionToken (hash : TokenHash)
  | teamChannelName (team : TeamId) (lower : Text)
  | organizationChannelName (organization : OrganizationId) (lower : Text)
  | channelSeq (channel : ChannelId) (seq : ℕ)
deriving DecidableEq

/-- A row, an entry of a unique index (an insert makes later inserters of the same
entry wait for its transaction), or a transaction's own id. -/
inductive Resource where
  | row (k : Key)
  | unique (entry : UniqueEntry)
  | transaction (xid : ℕ)
deriving DecidableEq

/-- The locks a transaction holds. -/
abbrev Held : Type := List (Resource × Txn.LockMode)

/-- Does the transaction hold the row in this mode? -/
abbrev Held.row (L : Held) (k : Key) (m : Txn.LockMode) : Prop := (Resource.row k, m) ∈ L

/-- Does the transaction hold the row in some mode? -/
def Held.any (L : Held) (k : Key) : Prop := ∃ m, L.row k m

end Fukulow
