/-
`operations/identity.rs`: people and organizations.
-/
import Fukulow.Operations.Locks

set_option autoImplicit false

namespace Fukulow

/-- `users_email_lower_key`. -/
def email_index (email : Text) : UniqueIndex where
  entry := .email (lower email)
  constraint := "users_email_lower_key"
  taken db := !(db.rows.select (β := ActorId) fun
    | .user a, r => if lower r.email = lower email then some a else none
    | _, _ => none).isEmpty

/-- `create_person`, inside the caller's transaction: the performer becomes the new actor.
Its savepoint matters only to a caller that goes on after an error, and none does. -/
def create_person (s : Settings) (email password_hash display_name : Text) (actor : ActorId) :
    Sql CreatePersonError ActorId := do
  insert (.actor actor) ⟨.human, some display_name, none⟩ "actors_pkey"
    (fun _ => admit_if (storable display_name) .invalidText) [] []
  let s := set_context s (.actor actor)
  (insert (.user actor) ⟨email, password_hash⟩ "users_pkey"
    (fun _ =>
      if !(storable email && storable password_hash) then .error .invalidText
      else admit_if (users_insert s actor) .insufficientPrivilege)
    [email_index email] [⟨.actor actor, fun r => r.type = .human⟩]).mapError fun e =>
      if e.constraint "users_email_lower_key" then CreatePersonError.emailTaken else .database e
  return actor

/-- `organizations_slug_format`: `^[a-z0-9]([a-z0-9-]{0,30}[a-z0-9])?$`. -/
def slug_format (slug : Text) : Bool :=
  slug.length ≤ 32 && alphanumeric slug.head? && alphanumeric slug.getLast?
    && slug.all fun c => alphanumeric (some c) || c = '-'
where
  alphanumeric : Option Char → Bool
    | some c => ('a' ≤ c && c ≤ 'z') || ('0' ≤ c && c ≤ '9')
    | none => false

/-- `organizations_slug_key`. -/
def slug_index (slug : Text) : UniqueIndex where
  entry := .slug slug
  constraint := "organizations_slug_key"
  taken db := !(db.rows.select (β := OrganizationId) fun
    | .organization o, r => if r.slug = slug then some o else none
    | _, _ => none).isEmpty

def create_organization (tx : Transaction) (creator : ActorId) (name slug : Text)
    (organization : OrganizationId) : Sql CreateOrganizationError OrganizationId := do
  let s := begin tx (.actor creator)
  match ← lock_actor s creator creator with
  | none => .throw .actorNotFound
  | some true => .throw .actorDeparted
  | some false => do
    (insert (.organization organization) ⟨name, slug⟩ "organizations_pkey"
      (fun _ =>
        if !(storable name && storable slug) then .error .invalidText
        else if !organizations_insert s then .error .insufficientPrivilege
        else admit_if (slug_format slug) (.check "organizations_slug_format"))
      [slug_index slug] []).mapError fun e =>
        if e.constraint "organizations_slug_format" then CreateOrganizationError.invalidSlug
        else if e.constraint "organizations_slug_key" then .slugTaken
        else .database e
    let row : MemberRow := ⟨.owner, .active, none⟩
    insert (.member organization creator) row "organization_members_pkey"
      (fun db => admit_if (organization_members_insert s db organization creator row
          || organization_members_insert_invite s db organization creator row)
        .insufficientPrivilege)
      [] [⟨.organization organization, fun _ => true⟩, ⟨.actor creator, fun _ => true⟩]
    (Event.organization_created organization).write s organization creator
    (Event.member_added creator .owner).write s organization creator
    return organization

end Fukulow
