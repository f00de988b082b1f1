/-
`crates/domain`: identities, enumerated values, conversation types and the owner rule.

`identifier!` makes one newtype over `Uuid` per kind of thing; here it is one
structure with the kind as a parameter, so that an actor id is never taken for an
organization id. A uuid is its 128-bit number: PostgreSQL and Rust order uuids by
their bytes, which is the order of these numbers, and nothing below depends on the
bound. Text is the list of its Unicode scalar values.
-/
import Mathlib.Algebra.Group.Nat.Defs
import Mathlib.Order.Basic
import Mathlib.Data.Nat.Basic
import Mathlib.Order.Defs.LinearOrder

set_option autoImplicit false

namespace Fukulow

abbrev Uuid : Type := ℕ

abbrev Text : Type := List Char

/-- Seconds, on the database's clock. -/
abbrev Instant : Type := ℤ

/-- The kinds of thing that have an identifier. -/
inductive Entity where
  | actor
  | organization
  | team
  | invite
  | channel
  | session
deriving DecidableEq, Repr

/-- `identifier!`: a uuid that names one kind of thing. -/
structure Identifier (entity : Entity) where
  uuid : Uuid
deriving DecidableEq, Repr

/-- An identifier is known by its uuid, within one kind of entity. -/
theorem Identifier.uuid_injective (entity : Entity) :
    Function.Injective (@Identifier.uuid entity) :=
  fun a b h => by cases a; cases b; simpa using h

instance (entity : Entity) : LinearOrder (Identifier entity) :=
  LinearOrder.lift' Identifier.uuid (Identifier.uuid_injective entity)

abbrev ActorId : Type := Identifier .actor
abbrev OrganizationId : Type := Identifier .organization
abbrev TeamId : Type := Identifier .team
abbrev InviteId : Type := Identifier .invite
abbrev ChannelId : Type := Identifier .channel
abbrev SessionId : Type := Identifier .session

/-! ## Enumerated values

The `CHECK` of each enumerated column admits exactly the spellings of its
`enumeration!`, so a stored value is its constructor. -/

inductive ActorType where
  | human | bot | integration | system
deriving DecidableEq, Repr

inductive OrganizationRole where
  | owner | admin | member
deriving DecidableEq, Repr

inductive MemberStatus where
  | active | suspended | left
deriving DecidableEq, Repr

inductive TeamRole where
  | manager | member
deriving DecidableEq, Repr

inductive InviteKind where
  | organization | team
deriving DecidableEq, Repr

def OrganizationRole.as_str : OrganizationRole → String
  | owner => "owner"
  | admin => "admin"
  | member => "member"

def TeamRole.as_str : TeamRole → String
  | manager => "manager"
  | member => "member"

def InviteKind.as_str : InviteKind → String
  | organization => "organization"
  | team => "team"

inductive Capability where
  | inviteMember
deriving DecidableEq, Repr

/-- The only role-to-capability table. -/
def OrganizationRole.holds (role : OrganizationRole) : Capability → Bool
  | .inviteMember => match role with
    | .owner | .admin => true
    | .member => false

/-! ## The owner rule -/

inductive OwnerChange where
  | demote (actor : ActorId)
  | suspend (actor : ActorId)
  | leave (actor : ActorId)

def OwnerChange.actor : OwnerChange → ActorId
  | demote a | suspend a | leave a => a

/-- May this change be made, given the active owners? (`false` is `Err(LastOwner)`.) -/
def check_owner_change (active_owners : List ActorId) (change : OwnerChange) : Bool :=
  active_owners.any fun owner => owner ≠ change.actor

/-- The rule in words: some other owner is among the owners. -/
theorem check_owner_change_iff {owners : List ActorId} {change : OwnerChange} :
    check_owner_change owners change = true ↔ ∃ owner ∈ owners, owner ≠ change.actor := by
  simp [check_owner_change]

/-! ## Channels and messages -/

/-- The version and variant bits of a UUIDv7. -/
def IsV7 (u : Uuid) : Prop := u / 2 ^ 76 % 16 = 7 ∧ u / 2 ^ 62 % 4 = 2

instance (u : Uuid) : Decidable (IsV7 u) := inferInstanceAs (Decidable (_ ∧ _))

/-- A message id is a client's uuid that passed `from_client`. -/
structure MessageId where
  uuid : Uuid
  v7 : IsV7 uuid
deriving DecidableEq

inductive NotV7 where
  | notV7

def MessageId.from_client (value : Uuid) : Except NotV7 MessageId :=
  if h : IsV7 value then .ok ⟨value, h⟩ else .error .notV7

inductive ChannelScope where
  | organization
  | team (id : TeamId)
deriving DecidableEq, Repr

def ChannelScope.as_str : ChannelScope → String
  | organization => "organization"
  | team _ => "team"

/-- A position in a channel; a stored message's is at least 1. -/
structure ChannelSeq where
  get : ℕ
deriving DecidableEq, Repr

/-- The exclusive cursor before the first message. -/
def ChannelSeq.BEGINNING : ChannelSeq := ⟨0⟩

inductive InvalidChannelSeq where
  | invalidChannelSeq

def ChannelSeq.new (value : ℤ) : Except InvalidChannelSeq ChannelSeq :=
  if 1 ≤ value then .ok ⟨value.toNat⟩ else .error .invalidChannelSeq

/-- A stored lookup key of a session or invite token. The field is private to `context.rs`, and
both of the functions that fill it leave 64 lower-case hexadecimal digits. -/
structure TokenHash where
  as_str : Text
  length_eq : as_str.length = 64
  lower : ∀ c ∈ as_str, ('0' ≤ c ∧ c ≤ '9') ∨ ('a' ≤ c ∧ c ≤ 'f')
deriving DecidableEq, Repr

/-- A key is known by its text; the other fields are facts about it. -/
theorem TokenHash.ext_text {h k : TokenHash} (heq : h.as_str = k.as_str) : h = k := by
  cases h
  cases k
  cases heq
  rfl

end Fukulow
