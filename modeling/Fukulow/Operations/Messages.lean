/-
`operations/messages.rs`: posting and paging.
-/
import Fukulow.Operations.Locks

set_option autoImplicit false

namespace Fukulow

structure Message where
  id : MessageId
  channel_id : ChannelId
  channel_seq : ChannelSeq
  sender_actor_id : ActorId
  body : Text
  created_at : Instant
deriving DecidableEq

inductive PostMessage where
  | posted (message : Message)
  | alreadyPosted (message : Message)
deriving DecidableEq

/-- `Message::try_from`. The key of a stored message is a checked id, so only the sequence
number is tested. -/
def Message.try_from (id : MessageId) (row : MessageRow) : Except SqlError Message :=
  match ChannelSeq.new row.channel_seq with
  | .error _ => .error (.check "invalid stored message sequence")
  | .ok seq => .ok ⟨id, row.channel_id, seq, row.sender_actor_id, row.body, row.created_at⟩

/-- The largest `bigint`. -/
def bigint_max : ℕ := 2 ^ 63 - 1

/-- `UNIQUE (channel_id, channel_seq)`. -/
def channel_seq_index (channel : ChannelId) (seq : ℕ) : UniqueIndex where
  entry := .channelSeq channel seq
  constraint := "messages_channel_id_channel_seq_key"
  taken db := !(db.rows.select (β := Uuid) fun
    | .message m, r => if r.channel_id = channel ∧ r.channel_seq = seq then some m.uuid else none
    | _, _ => none).isEmpty

/-- A stored message, converted. -/
def lift_message {ε : Type} [FromSql ε] (m : Except SqlError Message) : Sql ε Message :=
  match m with
  | .error e => .throw (FromSql.database e)
  | .ok m => .pure m

def post_message (tx : Transaction) (organization_id : OrganizationId) (channel_id : ChannelId)
    (sender : ActorId) (id : MessageId) (body : Text) : Sql PostMessageError PostMessage := do
  if !(1 ≤ body.length && body.length ≤ 4000) then .throw .invalidBody
  else do
    let s := begin tx (.actor sender)
    let counter ← update (.channel channel_id)
      (fun db r => channels_select s db r && channels_update s db r)
      (fun r => r.organization_id = organization_id)
      (fun db r =>
        if r.next_message_seq + 1 > bigint_max then .error .outOfRange
        else if channels_update s db r then .ok { r with next_message_seq := r.next_message_seq + 1 }
        else .error .insufficientPrivilege)
    match counter with
    | none => .throw .notFound
    | some counter => do
      let row : MessageRow :=
        ⟨organization_id, channel_id, counter.next_message_seq, sender, body, s.now⟩
      let inserted ← insert_or_nothing (.message id) row
        (fun db =>
          if !storable body then .error .invalidText
          else if !(messages_insert s db row && messages_select s db row) then
            .error .insufficientPrivilege
          else if !(1 ≤ body.length && body.length ≤ 4000) then
            .error (.check "messages_body_check")
          else admit_if (1 ≤ row.channel_seq) (.check "messages_channel_seq_check"))
        [channel_seq_index channel_id counter.next_message_seq]
        [⟨.organization organization_id, fun _ => true⟩, ⟨.actor sender, fun _ => true⟩,
          ⟨.channel channel_id, fun r => r.organization_id = organization_id⟩]
      if inserted then do
        let message ← lift_message (Message.try_from id row)
        return .posted message
      else
        -- Release the counter and channel lock before looking up the committed retry.
        Txn.Prog.restart do
          let s := begin tx (.actor sender)
          let stored ← select fun db => (db.message id).filter fun r =>
            r.organization_id = organization_id && r.channel_id = channel_id
              && r.sender_actor_id = sender && messages_select s db r
          match stored with
          | none => .throw .idConflict
          | some row => do
            let message ← lift_message (Message.try_from id row)
            return .alreadyPosted message

/-- `channel_exists`. -/
def channel_exists (s : Settings) (organization : OrganizationId) (channel : ChannelId) :
    Sql SqlError Bool :=
  select fun db => (db.channel channel).any fun r =>
    r.organization_id = organization && channels_select s db r

/-- The visible messages of a channel whose number is `wanted`. -/
def channel_messages (s : Settings) (db : Database) (organization : OrganizationId)
    (channel : ChannelId) (wanted : ℕ → Bool) : List (MessageId × MessageRow) :=
  db.rows.select fun
    | .message m, r =>
        if r.organization_id = organization ∧ r.channel_id = channel
            ∧ messages_select s db r = true ∧ wanted r.channel_seq = true
        then some (m, r) else none
    | _, _ => none

/-- `limit.clamp(1, 200)`. -/
def page_limit (limit : ℕ) : ℕ := max 1 (min limit 200)

/-- `collect::<Result<_, _>>` over the rows of a page. -/
def try_messages (rows : List (MessageId × MessageRow)) : Except SqlError (List Message) :=
  rows.mapM fun row => Message.try_from row.1 row.2

def messages_before (tx : Transaction) (actor : ActorId) (organization_id : OrganizationId)
    (channel_id : ChannelId) (before : Option ChannelSeq) (limit : ℕ) :
    Sql MessagesBeforeError (List Message) := do
  let s := begin tx (.actor actor)
  if !(← channel_exists s organization_id channel_id) then .throw .notFound
  else do
    let rows ← select fun db =>
      ((channel_messages s db organization_id channel_id fun n => match before with
          | some cursor => n < cursor.get
          | none => true).insertionSort fun a b => b.2.channel_seq ≤ a.2.channel_seq).take
        (page_limit limit)
    match try_messages rows with
    | .error e => .throw (.database e)
    | .ok messages => return messages

def messages_after (tx : Transaction) (actor : ActorId) (organization_id : OrganizationId)
    (channel_id : ChannelId) (after : ChannelSeq) (limit : ℕ) :
    Sql MessagesAfterError (List Message) := do
  let s := begin tx (.actor actor)
  if !(← channel_exists s organization_id channel_id) then .throw .notFound
  else do
    let rows ← select fun db =>
      ((channel_messages s db organization_id channel_id fun n => after.get < n).insertionSort
          fun a b => a.2.channel_seq ≤ b.2.channel_seq).take (page_limit limit)
    match try_messages rows with
    | .error e => .throw (.database e)
    | .ok messages => return messages

end Fukulow
