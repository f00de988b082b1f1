/-
What each operation does to the committed state at its commit.

A commit is described by the writes it applies and by what is true of the committed
state `db` it applies them to: the state at the moment of the commit, not the ones its
statements happened to read. These are the guarantees of the rely-guarantee rules; that
the programs meet them is proved in `Fukulow.Guaranteed`, and everything said about runs
follows from them.

With `guarded`, a committing `reactivate_member` is presumed to hold the share lock on
its target that `lock_actor` takes when row security shows it the target. The rules then
speak of the runs in which no reactivation commits while its target is locked by its own
departure, and a departure guarantees in addition that it leaves no organization without
an owner.
-/
import Fukulow.Discipline

set_option autoImplicit false

namespace Fukulow

open Txn (LockMode)

section Commits

variable (ws : List Write) (db : Database)

/-- A committed change of `organization` by an active member of it, with its record. -/
structure Change (performed_by : ActorId) (organization : OrganizationId) (event : Event)
    (puts : List Write) : Prop where
  active : db.active organization performed_by = true
  writes : ws = puts ++ [.log ⟨organization, performed_by, event⟩]

/-- Does `actor` hold the capability in `organization`? -/
def Database.authorized (organization : OrganizationId) (actor : ActorId)
    (capability : Capability) : Prop :=
  ∃ r, db.member organization actor = some r ∧ r.status = .active
    ∧ r.role.holds capability = true

/-- Is there an active owner of `organization` beside `actor`? -/
def Database.ownedWithout (organization : OrganizationId) (actor : ActorId) : Prop :=
  ∃ b, b ≠ actor ∧ db.activeOwner organization b = true

/-- Is there an actor `a` who has not left? -/
def Database.present (a : ActorId) : Prop := ∃ r, db.actor a = some r ∧ r.deleted_at = none

def PersonCreated (email password_hash display_name : Text) (actor : ActorId) : Prop :=
  db.actor actor = none ∧ db.user actor = none
    ∧ ws = [.put (.actor actor) (some ⟨.human, some display_name, none⟩),
        .put (.user actor) (some ⟨email, password_hash⟩)]

def OrganizationCreated (creator : ActorId) (name slug : Text) (o : OrganizationId) : Prop :=
  db.organization o = none ∧ db.member o creator = none ∧ db.present creator
    ∧ ws = [.put (.organization o) (some ⟨name, slug⟩),
        .put (.member o creator) (some ⟨.owner, .active, none⟩),
        .log ⟨o, creator, .organization_created o⟩, .log ⟨o, creator, .member_added creator .owner⟩]

def RoleChanged (p : ActorId) (o : OrganizationId) (a : ActorId) (role : OrganizationRole) : Prop :=
  ws = [] ∨ ∃ r, db.member o a = some r ∧ r.status ≠ .left ∧ r.role ≠ role
    ∧ (db.activeOwner o a = true → role ≠ .owner → db.ownedWithout o a)
    ∧ Change ws db p o (.member_role_changed a r.role role)
        [.put (.member o a) (some { r with role := role })]

def MemberSuspended (p : ActorId) (o : OrganizationId) (a : ActorId) : Prop :=
  ∃ r, db.member o a = some r ∧ r.status = .active
    ∧ (r.role = .owner → db.ownedWithout o a)
    ∧ Change ws db p o (.member_suspended a)
        [.put (.member o a) (some { r with status := .suspended })]

def MemberReactivated (p : ActorId) (o : OrganizationId) (a : ActorId) : Prop :=
  ∃ r, db.member o a = some r ∧ r.status = .suspended
    ∧ Change ws db p o (.member_reactivated a)
        [.put (.member o a) (some { r with status := .active })]

def TeamCreated (p : ActorId) (o : OrganizationId) (name : Text) (t : TeamId) : Prop :=
  db.team t = none ∧ Change ws db p o (.team_created t) [.put (.team t) (some ⟨o, name⟩)]

def TeamMemberAdded (p : ActorId) (o : OrganizationId) (t : TeamId) (a : ActorId)
    (role : TeamRole) : Prop :=
  db.teamMember t a = none ∧ (∃ r, db.team t = some r ∧ r.organization_id = o)
    ∧ db.active o a = true
    ∧ Change ws db p o (.team_member_added a t role)
        [.put (.teamMember t a) (some ⟨o, role⟩)]

def TeamMemberRoleChanged (p : ActorId) (o : OrganizationId) (t : TeamId) (a : ActorId)
    (role : TeamRole) : Prop :=
  ws = [] ∨ ∃ r, db.teamMember t a = some r ∧ r.organization_id = o ∧ r.role ≠ role
    ∧ Change ws db p o (.team_member_role_changed a t r.role role)
        [.put (.teamMember t a) (some { r with role := role })]

def TeamMemberRemoved (p : ActorId) (o : OrganizationId) (t : TeamId) (a : ActorId) : Prop :=
  ∃ r, db.teamMember t a = some r ∧ r.organization_id = o
    ∧ Change ws db p o (.team_member_removed a t .removed) [.put (.teamMember t a) none]

def ChannelCreated (p : ActorId) (o : OrganizationId) (scope : ChannelScope) (name : Text)
    (c : ChannelId) : Prop :=
  db.channel c = none
    ∧ (∀ t, scope = .team t → ∃ r, db.team t = some r ∧ r.organization_id = o)
    ∧ Change ws db p o (.channel_created c scope) [.put (.channel c) (some ⟨o, scope, name, 0⟩)]

def ChannelMemberAdded (p : ActorId) (o : OrganizationId) (c : ChannelId) (a : ActorId) : Prop :=
  db.channelMember c a = none
    ∧ (∃ r, db.channel c = some r ∧ r.organization_id = o ∧ r.scope ≠ .organization)
    ∧ db.present a
    ∧ Change ws db p o (.channel_member_added a c) [.put (.channelMember c a) (some ⟨o⟩)]

/-- The message that a stored row is. -/
def MessageRow.message (id : MessageId) (r : MessageRow) : Message :=
  ⟨id, r.channel_id, ⟨r.channel_seq⟩, r.sender_actor_id, r.body, r.created_at⟩

/-- Sent: stored under the next number of its channel. -/
structure Sent (id : MessageId) (r : MessageRow) (c : ChannelRow) : Prop where
  channel : db.channel r.channel_id = some c
  organization : c.organization_id = r.organization_id
  seq : r.channel_seq = c.next_message_seq + 1
  new : db.message id = none
  writes : ws = [.put (.channel r.channel_id)
      (some { c with next_message_seq := c.next_message_seq + 1 }), .put (.message id) (some r)]

/-- Is the stored message a send of these three? -/
def MessageRow.from_ (r : MessageRow) (o : OrganizationId) (c : ChannelId) (sender : ActorId) :
    Prop :=
  r.organization_id = o ∧ r.channel_id = c ∧ r.sender_actor_id = sender

/-- Sent now, or found as stored before. -/
def MessagePosted (o : OrganizationId) (c : ChannelId) (sender : ActorId) (id : MessageId)
    (body : Text) (reply : Reply) : Prop :=
  ∃ r : MessageRow, r.from_ o c sender
    ∧ ((reply = .post_message (.ok (.posted (r.message id))) ∧ r.body = body
        ∧ ∃ row, Sent ws db id r row)
      ∨ (reply = .post_message (.ok (.alreadyPosted (r.message id))) ∧ db.message id = some r
        ∧ ws = []))

def InviteCreated (tx : Transaction) (p : ActorId) (o : OrganizationId) (hash : TokenHash)
    (expires_at : Instant) (max_uses : ℤ) (i : InviteId) : Prop :=
  db.invite i = none ∧ 0 < max_uses ∧ db.authorized o p .inviteMember
    ∧ Change ws db p o (.invite_created o i max_uses)
        [.put (.invite i) (some
          { organization_id := o, target := .organization, token_hash := hash
            expires_at := expires_at, max_uses := max_uses, used_count := 0, revoked_at := none
            created_by_actor_id := p, xmin := tx.xid })]

def InviteRevoked (tx : Transaction) (p : ActorId) (o : OrganizationId)
    (invite : Option InviteId) : Prop :=
  ws = [] ∨ ∃ i r, invite = some i ∧ db.invite i = some r ∧ r.organization_id = o
    ∧ r.revoked_at = none ∧ db.authorized o p .inviteMember
    ∧ Change ws db p o (.invite_revoked o i)
        [.put (.invite i) (some { r with revoked_at := some tx.now, xmin := tx.xid })]

/-- May the invite still be used, by a transaction that started at `now`? -/
structure InviteRow.open (r : InviteRow) (hash : TokenHash) (now : Instant) : Prop where
  token : r.token_hash = hash
  target : r.target = .organization
  uses : r.used_count < r.max_uses
  revoked : r.revoked_at = none
  expires : now < r.expires_at

def InviteAccepted (tx : Transaction) (hash : TokenHash) (email password_hash display_name : Text)
    (a : ActorId) (reply : Reply) : Prop :=
  ∃ i r, db.invite i = some r ∧ r.open hash tx.now ∧ db.actor a = none ∧ db.user a = none
    ∧ db.member r.organization_id a = none
    ∧ reply = .accept_invite (.ok (a, r.organization_id))
    ∧ ws = [.put (.invite i) (some { r with used_count := r.used_count + 1, xmin := tx.xid }),
        .put (.actor a) (some ⟨.human, some display_name, none⟩),
        .put (.user a) (some ⟨email, password_hash⟩),
        .put (.member r.organization_id a) (some ⟨.member, .active, none⟩),
        .log ⟨r.organization_id, a, .member_invited a i⟩]

def SignedIn (token_hash : TokenHash) (expires_at : Instant) (id : SessionId) : Prop :=
  ∃ a, db.present a ∧ db.user a ≠ none ∧ db.session id = none
    ∧ ws = [.put (.session id) (some ⟨a, token_hash, expires_at, none⟩)]

def SessionRevoked : Prop :=
  ∃ i r at_, db.session i = some r
    ∧ ws = [.put (.session i) (some { r with revoked_at := some at_ })]

/-! ## Departures -/

/-- The tables in which a departure leaves no trace of the person, or only a husk. -/
def Key.personal : Key → Bool
  | .actor _ | .user _ | .member _ _ | .teamMember _ _ | .channelMember _ _ | .session _ => true
  | _ => false

/-- What a departure at `now` makes of a row about the person who leaves. -/
def departing (now : Instant) : (k : Key) → Row k → Option (Row k)
  | .actor _, r => some { r with display_name := none, deleted_at := some now }
  | .member _ _, r => some { r with status := .left, display_name := none }
  | .user _, _ | .teamMember _ _, _ | .channelMember _ _, _ | .session _, _ => none
  | .organization _, r => some r
  | .team _, r => some r
  | .channel _, r => some r
  | .message _, r => some r
  | .invite _, r => some r

/-- The records a departure of `a` writes in organization `o`. -/
def DepartureRecord (a : ActorId) (o : OrganizationId) : Event → Prop
  | .team_member_removed b t reason =>
      b = a ∧ reason = .leftService ∧ ∃ r, db.teamMember t a = some r ∧ r.organization_id = o
  | .member_left b => b = a ∧ ∃ r, db.member o a = some r
  | .channel_member_left b c => b = a ∧ ∃ r, db.channelMember c a = some r ∧ r.organization_id = o
  | _ => False

structure Departure (guarded : Bool) (now : Instant) (a : ActorId) : Prop where
  present : db.present a
  owners : guarded = true → ∀ o, db.activeOwner o a = true → db.ownedWithout o a
  puts : ∀ k r, Write.put k r ∈ ws ↔
    k.personal = true ∧ ∃ x, db.rows.get k = some x ∧ person k x = some a ∧ r = departing now k x
  records : ∀ row, Write.log row ∈ ws ↔
    row.actor_id = a ∧ DepartureRecord db a row.organization_id row.event

end Commits

/-! ## The rules -/

/-- What the call commits. -/
def CommitSpec (guarded : Bool) (q : Request) (ws : List Write) (reply : Reply)
    (db : Database) : Prop :=
  match q.call with
  | .create_person email hash name a => PersonCreated ws db email hash name a
  | .create_organization creator name slug o => OrganizationCreated ws db creator name slug o
  | .change_member_role p o a role => RoleChanged ws db p o a role
  | .suspend_member p o a => MemberSuspended ws db p o a
  | .reactivate_member p o a => MemberReactivated ws db p o a
  | .leave_service a => Departure ws db guarded q.tx.now a
  | .create_team p o name t => TeamCreated ws db p o name t
  | .add_team_member p o t a role => TeamMemberAdded ws db p o t a role
  | .change_team_member_role p o t a role => TeamMemberRoleChanged ws db p o t a role
  | .remove_team_member p o t a => TeamMemberRemoved ws db p o t a
  | .create_channel p o scope name c => ChannelCreated ws db p o scope name c
  | .add_channel_member p o c a => ChannelMemberAdded ws db p o c a
  | .post_message o c sender id body => MessagePosted ws db o c sender id body reply
  | .create_invite p o token expires n i =>
      ∃ t hash, token = some (t, hash) ∧ InviteCreated ws db q.tx p o hash expires n i
  | .revoke_invite p o i => InviteRevoked ws db q.tx p o i
  | .accept_invite hash email pw name a =>
      InviteAccepted ws db q.tx hash email pw name a reply
  | .sign_in _ _ token expires i => ∃ t hash, token = some (t, hash) ∧ SignedIn ws db hash expires i
  | .revoke_session _ _ => SessionRevoked ws db
  | .messages_before .. | .messages_after .. | .invite_is_usable .. | .resolve_session ..
  | .me .. => ws = []

/-- A committed state, up to `w`, held a message with this id which differs from the call, or
which its sender could not see. -/
def ConflictSeen (V : World → Prop) (o : OrganizationId) (c : ChannelId) (sender : ActorId)
    (id : MessageId) (w : World) : Prop :=
  ∃ u, V u ∧ u.states <+: w.states ∧ ∃ r, u.store.message id = some r
    ∧ (r.from_ o c sender → u.store.active o sender = false)

/-- What is promised about a failing call: an `IdConflict` saw one. -/
def FailSpec (V : World → Prop) (q : Request) (reply : Reply) (w : World) : Prop :=
  match q.call with
  | .post_message o c sender id _ =>
      reply = .post_message (.error .idConflict) → ConflictSeen V o c sender id w
  | _ => True

/-- The share lock that a reactivation is presumed to hold on its target. -/
def presumedLocks (guarded : Bool) : Call → Held
  | .reactivate_member _ _ a => if guarded then [(.row (.actor a), .share)] else []
  | _ => []

/-- The rules of the calls `allowed`, over worlds that satisfy `V`. -/
def rules (allowed : Call → Bool) (guarded : Bool) (V : World → Prop) :
    Txn.Rules (engine allowed) where
  valid := V
  guar q L o w :=
    match o with
    | .committed ws reply => Disciplined q.call L ws w.store
        ∧ CommitSpec guarded q ws reply w.store ∧ allowed q.call = true
    | .failed reply => FailSpec V q reply w
    | .aborted => True
  presumes q := presumedLocks guarded q.call

end Fukulow
