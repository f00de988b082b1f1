/-
The unique indexes hold in every committed state.

`UNIQUE` is not taken for granted: an insert of the model looks for a row with its entry in
the committed state, and two inserts that run side by side do not see each other. What keeps
them apart is that each locks the entry before it looks and holds the lock until it has
committed. All seven inserts of the operations do (`enters_body`), and no update and no other
call changes an entry.
-/
import Fukulow.Consistency
import Fukulow.Txn.Indexes

set_option autoImplicit false

namespace Fukulow

open Txn (LockMode)

/-! ## Entries -/

/-- The tables with a unique index beside the primary key. -/
inductive Table where
  | users | organizations | channels | messages | invites | sessions
deriving DecidableEq

def Key.table : Key → Option Table
  | .user _ => some .users
  | .organization _ => some .organizations
  | .channel _ => some .channels
  | .message _ => some .messages
  | .invite _ => some .invites
  | .session _ => some .sessions
  | .actor _ | .member _ _ | .team _ | .teamMember _ _ | .channelMember _ _ => none

def UniqueEntry.table : UniqueEntry → Table
  | email _ => .users
  | slug _ => .organizations
  | teamChannelName _ _ | organizationChannelName _ _ => .channels
  | channelSeq _ _ => .messages
  | inviteToken _ => .invites
  | sessionToken _ => .sessions

/-- The entry of a channel's name. -/
def channel_name_entry (organization : OrganizationId) (name : Text) : ChannelScope → UniqueEntry
  | .organization => .organizationChannelName organization (lower name)
  | .team t => .teamChannelName t (lower name)

/-- The entry of a row in the unique index of its table. -/
def entry_of : (k : Key) → Row k → Option UniqueEntry
  | .user _, r => some (.email (lower r.email))
  | .organization _, r => some (.slug r.slug)
  | .channel _, r => some (channel_name_entry r.organization_id r.name r.scope)
  | .message _, r => some (.channelSeq r.channel_id r.channel_seq)
  | .invite _, r => some (.inviteToken r.token_hash)
  | .session _, r => some (.sessionToken r.token_hash)
  | .actor _, _ | .member _ _, _ | .team _, _ | .teamMember _ _, _ | .channelMember _ _, _ => none

/-- The entry of a row is one of the index of its own table, so two tables never compete for one.
-/
theorem entry_table {k : Key} {r : Row k} {e : UniqueEntry} (h : entry_of k r = some e) :
    k.table = some e.table := by
  cases k with
  | channel c =>
      cases h
      unfold channel_name_entry
      split
      · rfl
      · rfl
  | user | organization | message | invite | session =>
      cases h
      rfl
  | _ => cases h

/-- No two rows have one entry. -/
def Unique (db : Database) : Prop :=
  ∀ k k' r r' e, db.rows.get k = some r → db.rows.get k' = some r' → entry_of k r = some e →
    entry_of k' r' = some e → k = k'

/-- Without rows nothing is doubled. -/
theorem Unique.empty : Unique Database.empty := by
  intro k k' r r' e h
  cases h

/-- The index of a table: its entries are locked as themselves. -/
def table_index (t : Table) : Txn.Index Write.apply Resource where
  used db res := ∃ e k r, res = .unique e ∧ e.table = t ∧ db.rows.get k = some r
    ∧ entry_of k r = some e
  touches u := ∃ k r, u = .put k r ∧ k.table = some t
  entries
    | .put k (some r) => (entry_of k r).toList.map .unique
    | .put _ none => []
    | .log _ => []
  frame := by
    intro u db res hnot
    refine exists_congr fun e => exists_congr fun k => exists_congr fun r =>
      and_congr_right fun _ => and_congr_right fun ht => and_congr_left fun hentry => ?_
    cases u with
    | log row => exact Iff.rfl
    | put k' r' =>
        -- A row with this entry is a row of the table.
        have hne : k ≠ k' := by
          rintro rfl
          exact hnot ⟨k, r', rfl, ht ▸ entry_table hentry⟩
        rw [Write.apply_put_rows, Txn.Store.get_put_of_ne hne]

/-! ## What the statements write -/

section Statements

variable {P : Write → Prop} {ε : Type} [FromSql ε]

theorem emits_lift {α : Type} {p : Sql SqlError α} (h : p.Emits P) :
    (liftM p : Sql ε α).Emits P :=
  Txn.Prog.emits_mapError.mpr h

theorem emits_snapshot {ε : Type} : (snapshot : Sql ε Database).Emits P := fun _ => trivial

theorem emits_lockRow {ε : Type} {k : Key} {m : LockMode} :
    (lockRow k m : Sql ε Database).Emits P :=
  fun _ => trivial

theorem emits_emit {ε : Type} {u : Write} (h : P u) : (emit u : Sql ε Unit).Emits P := ⟨h, trivial⟩

theorem emits_ensure {ε : Type} {b : Bool} {e : ε} : (ensure b e : Sql ε Unit).Emits P := by
  unfold ensure
  split
  · trivial
  · trivial

theorem emits_select {τ : Type} {f : Database → τ} : (select f).Emits P := fun _ => trivial

theorem emits_lock_rows {τ β : Type} {key : τ → Key} {m : LockMode} {read : Database → τ → β}
    {xs : List τ} : (lock_rows key m read xs).Emits P := by
  induction xs with
  | nil => trivial
  | cons x xs ih =>
      unfold lock_rows
      exact Txn.Prog.emits_bind emits_lockRow fun _ => Txn.Prog.emits_bind ih fun _ => trivial

theorem emits_select_locking {k : Key} {m : LockMode} {visible : Database → Row k → Bool}
    {matches_ : Row k → Bool} : (select_locking k m visible matches_).Emits P := by
  unfold select_locking
  refine Txn.Prog.emits_bind emits_snapshot fun db => ?_
  split
  · trivial
  · split
    · exact Txn.Prog.emits_bind emits_lockRow fun _ => trivial
    · trivial

theorem emits_lock_actor {s : Settings} {a p : ActorId} : (lock_actor s a p).Emits P := by
  unfold lock_actor
  refine Txn.Prog.emits_bind emits_snapshot fun db => ?_
  exact Txn.Prog.emits_bind emits_lock_rows fun _ => trivial

theorem emits_lock_organization {s : Settings} {o : OrganizationId} {lock : OrganizationLock} :
    (lock_organization s o lock).Emits P :=
  Txn.Prog.emits_bind emits_select_locking fun _ => trivial

theorem emits_check_reference {ref : Reference} : (check_reference ref).Emits P := by
  unfold check_reference
  refine Txn.Prog.emits_bind emits_snapshot fun _ => Txn.Prog.emits_bind emits_ensure fun _ => ?_
  exact Txn.Prog.emits_bind emits_lockRow fun _ => emits_ensure

theorem emits_check_references {references : List Reference} :
    (references.forM check_reference).Emits P :=
  Txn.Prog.emits_forM (fun _ => emits_check_reference) references

theorem emits_enter_index {index : UniqueIndex} : (enter_index index).Emits P := by
  intro newest
  exact emits_ensure

/-- An insert writes its row, and only when its policies admit it; what it locks on the way and
what it references are no writes. -/
theorem emits_insert_row {db : Database} {k : Key} {r : Row k}
    {admits : Database → Except SqlError Unit} {indexes : List UniqueIndex}
    {references : List Reference} (h : admits db = .ok () → P (.put k (some r))) :
    (insert_row db k r admits indexes references).Emits P := by
  unfold insert_row
  split
  · trivial
  · rename_i hok
    refine Txn.Prog.emits_bind emits_lockRow fun newest => ?_
    split
    · trivial
    · refine Txn.Prog.emits_bind (Txn.Prog.emits_forM (fun _ => emits_enter_index) indexes) fun _ => ?_
      refine Txn.Prog.emits_bind (emits_emit (h hok)) fun _ => ?_
      exact Txn.Prog.emits_bind emits_check_references fun _ => trivial

theorem emits_insert {k : Key} {r : Row k} {pkey : String}
    {admits : Database → Except SqlError Unit} {indexes : List UniqueIndex}
    {references : List Reference} (h : ∀ db, admits db = .ok () → P (.put k (some r))) :
    (insert k r pkey admits indexes references).Emits P := by
  refine Txn.Prog.emits_bind ?_ fun _ => emits_ensure
  exact Txn.Prog.emits_bind emits_snapshot fun db => emits_insert_row (h db)

/-- An update writes some version of its row. -/
theorem emits_update_row {db : Database} {k : Key} {visible : Database → Row k → Bool}
    {matches_ : Row k → Bool} {set : Database → Row k → Except SqlError (Row k)}
    (h : ∀ r, P (.put k (some r))) : (update_row db k visible matches_ set).Emits P := by
  unfold update_row
  split
  · trivial
  · split
    · refine Txn.Prog.emits_bind emits_lockRow fun newest => ?_
      split
      · trivial
      · split
        · split
          · trivial
          · exact Txn.Prog.emits_bind (emits_emit (h _)) fun _ => trivial
        · trivial
    · trivial

theorem emits_authorize {s : Settings} {a : ActorId} {o : OrganizationId} {capability : Capability} :
    (authorize s a o capability).Emits P := by
  unfold authorize
  refine Txn.Prog.emits_bind emits_select_locking fun row => ?_
  split
  · trivial
  · trivial

/-- Answering with a stored message writes nothing: the repeated sending of a message inserts
nothing anew. -/
theorem emits_lift_message {m : Except SqlError Message} {f : Message → PostMessage} :
    ((lift_message m : Sql PostMessageError Message) >>= fun m => pure (f m)).Emits P := by
  cases m with
  | error e => trivial
  | ok m => trivial

theorem emits_event_write {e : Event} {s : Settings} {o : OrganizationId} {p : ActorId}
    (h : P (.log ⟨o, p, e⟩)) : (e.write s o p).Emits P := by
  unfold Event.write
  refine Txn.Prog.emits_bind emits_snapshot fun _ => Txn.Prog.emits_bind emits_ensure fun _ => ?_
  refine Txn.Prog.emits_bind (emits_emit h) fun _ => ?_
  exact Txn.Prog.emits_bind emits_check_reference fun _ => emits_check_reference

end Statements

/-! ## Inserts enter their index -/

section Inserts

variable {t : Table} {C : List Resource}

/-- An index whose `taken` sees every use of its entry. -/
def UniqueIndex.Sees (index : UniqueIndex) : Prop :=
  ∀ db k r, db.rows.get k = some r → entry_of k r = some index.entry → index.taken db = true

theorem email_index_sees (email : Text) : (email_index email).Sees := by
  intro db k r hr hentry
  cases k with
  | user a =>
      have hlower : lower r.email = lower email := UniqueEntry.email.inj (Option.some.inj hentry)
      exact Txn.Store.select_nonempty_iff.mpr ⟨.user a, r, a, hr, if_pos hlower⟩
  | _ => cases entry_table hentry

theorem slug_index_sees (slug : Text) : (slug_index slug).Sees := by
  intro db k r hr hentry
  cases k with
  | organization o =>
      have hslug : r.slug = slug := UniqueEntry.slug.inj (Option.some.inj hentry)
      exact Txn.Store.select_nonempty_iff.mpr ⟨.organization o, r, o, hr, if_pos hslug⟩
  | _ => cases entry_table hentry

theorem invite_token_index_sees (hash : TokenHash) : (invite_token_index hash).Sees := by
  intro db k r hr hentry
  cases k with
  | invite i =>
      have htoken : r.token_hash = hash := UniqueEntry.inviteToken.inj (Option.some.inj hentry)
      exact Txn.Store.select_nonempty_iff.mpr ⟨.invite i, r, i, hr, if_pos htoken⟩
  | _ => cases entry_table hentry

theorem session_token_index_sees (hash : TokenHash) : (session_token_index hash).Sees := by
  intro db k r hr hentry
  cases k with
  | session i =>
      have htoken : r.token_hash = hash := UniqueEntry.sessionToken.inj (Option.some.inj hentry)
      exact Txn.Store.select_nonempty_iff.mpr ⟨.session i, r, i, hr, if_pos htoken⟩
  | _ => cases entry_table hentry

theorem channel_seq_index_sees (channel : ChannelId) (seq : ℕ) :
    (channel_seq_index channel seq).Sees := by
  intro db k r hr hentry
  cases k with
  | message m =>
      have hseq := UniqueEntry.channelSeq.inj (Option.some.inj hentry)
      exact Txn.Store.select_nonempty_iff.mpr ⟨.message m, r, m.uuid, hr, if_pos hseq⟩
  | _ => cases entry_table hentry

/-- The two partial indexes of channel names, by the scope. -/
theorem channel_name_index_entry (o : OrganizationId) (scope : ChannelScope) (name : Text) :
    (channel_name_index o scope name).entry = channel_name_entry o name scope := by
  cases scope with
  | organization => rfl
  | team t => rfl

theorem channel_name_index_sees (o : OrganizationId) (scope : ChannelScope) (name : Text) :
    (channel_name_index o scope name).Sees := by
  intro db k r hr hentry
  cases k with
  | channel c =>
      rw [channel_name_index_entry] at hentry
      have hsame := Option.some.inj hentry
      cases scope with
      | organization =>
          cases hscope : r.scope with
          | team t =>
              rw [hscope] at hsame
              cases hsame
          | organization =>
              rw [hscope] at hsame
              have hname := UniqueEntry.organizationChannelName.inj hsame
              exact Txn.Store.select_nonempty_iff.mpr ⟨.channel c, r, c, hr, if_pos ⟨hscope, hname⟩⟩
      | team t =>
          cases hscope : r.scope with
          | organization =>
              rw [hscope] at hsame
              cases hsame
          | team t' =>
              rw [hscope] at hsame
              obtain ⟨rfl, hname⟩ := UniqueEntry.teamChannelName.inj hsame
              exact Txn.Store.select_nonempty_iff.mpr ⟨.channel c, r, c, hr, if_pos ⟨hscope, hname⟩⟩
  | _ =>
      have htable := entry_table hentry
      cases scope with
      | organization => cases htable
      | team t => cases htable

/-- An insert with one unique index: it enters the index of its table. The lock on the entry comes
before the look whether it is taken, and the row is written after both. -/
theorem enters_insert_row {db : Database} {k : Key} {r : Row k}
    {admits : Database → Except SqlError Unit} {index : UniqueIndex} {references : List Reference}
    (hk : k.table = some t) (hentry : entry_of k r = some index.entry) (hsees : index.Sees) :
    (table_index t).Enters LockMode.update C (insert_row db k r admits [index] references) := by
  unfold insert_row
  split
  · trivial
  refine Txn.Index.enters_bind emits_lockRow fun newest => ?_
  split
  · trivial
  have hrest : (table_index t).Enters LockMode.update [.unique index.entry]
      ((emit (.put k (some r)) >>= fun _ => references.forM check_reference >>= fun _ => pure true :
        Sql SqlError Bool)) := by
    refine ⟨fun _ => ⟨fun res hres => ?_, ?_⟩, fun hnot => ?_⟩
    · change res ∈ (entry_of k r).toList.map Resource.unique at hres
      rw [hentry] at hres
      exact hres
    · change Txn.Prog.Emits _
        (references.forM check_reference >>= fun _ => pure true : Sql SqlError Bool)
      exact Txn.Prog.emits_bind emits_check_references fun _ => trivial
    · exact absurd ⟨k, some r, rfl, hk⟩ hnot
  intro s
  refine ⟨fun _ _ => ?_, fun hnot => ?_⟩
  · change (table_index t).Enters LockMode.update [.unique index.entry]
      ((ensure (!index.taken s) (SqlError.unique index.constraint) >>= fun _ => pure ()) >>= fun _ => _)
    cases index.taken s with
    | true => trivial
    | false => exact hrest
  · -- Somebody uses the entry, and the insert fails.
    rcases hnot with hmode | ⟨e, k', r', he, -, hr', hentry'⟩
    · exact absurd rfl hmode
    · cases he
      have htaken : index.taken s = true := hsees s k' r' hr' hentry'
      change (table_index t).Enters LockMode.update []
        ((ensure (!index.taken s) (SqlError.unique index.constraint) >>= fun _ => pure ()) >>= fun _ => _)
      rw [htaken]
      trivial

theorem enters_insert {k : Key} {r : Row k} {pkey : String}
    {admits : Database → Except SqlError Unit} {index : UniqueIndex} {references : List Reference}
    (hk : k.table = some t) (hentry : entry_of k r = some index.entry) (hsees : index.Sees) :
    (table_index t).Enters LockMode.update C (insert k r pkey admits [index] references) := by
  refine Txn.Index.Enters.bind ?_ fun _ => emits_ensure
  exact Txn.Index.enters_bind emits_snapshot fun _ => enters_insert_row hk hentry hsees

theorem enters_lift {ε α : Type} [FromSql ε] {p : Sql SqlError α}
    (h : (table_index t).Enters LockMode.update C p) :
    (table_index t).Enters LockMode.update C (liftM p : Sql ε α) :=
  Txn.Index.enters_mapError.mpr h

end Inserts

/-! ## The operations that insert -/

section Operations

variable {tx : Transaction} {s : Settings} {C : List Resource} {p : ActorId} {o : OrganizationId}

/-- A write of another table leaves the index alone. -/
theorem not_touches {t : Table} {k : Key} {r : Option (Row k)} (h : k.table ≠ some t) :
    ¬ (table_index t).touches (.put k r) := by
  rintro ⟨k', r', heq, hk⟩
  cases heq
  exact h hk

theorem log_not_touches {t : Table} {row : AuditRow} : ¬ (table_index t).touches (.log row) := by
  rintro ⟨k, r, heq, -⟩
  cases heq

theorem enters_create_person {email hash name : Text} {a : ActorId} :
    (table_index .users).Enters LockMode.update C (create_person s email hash name a) := by
  unfold create_person
  refine Txn.Index.enters_bind (emits_lift (emits_insert fun _ _ => not_touches (by rintro ⟨⟩)))
    fun _ => ?_
  refine Txn.Index.Enters.bind (Txn.Index.enters_mapError.mpr ?_) fun _ => trivial
  exact enters_insert rfl rfl (email_index_sees email)

theorem enters_create_organization {name slug : Text} :
    (table_index .organizations).Enters LockMode.update C (create_organization tx p name slug o) := by
  unfold create_organization
  refine Txn.Index.enters_bind (emits_lift emits_lock_actor) fun departed => ?_
  split
  · trivial
  · trivial
  · refine Txn.Index.Enters.bind (Txn.Index.enters_mapError.mpr ?_) fun _ => ?_
    · exact enters_insert rfl rfl (slug_index_sees slug)
    · refine Txn.Prog.emits_bind (emits_lift (emits_insert fun _ _ => not_touches (by rintro ⟨⟩)))
        fun _ => ?_
      refine Txn.Prog.emits_bind (emits_lift (emits_event_write log_not_touches)) fun _ => ?_
      exact Txn.Prog.emits_bind (emits_lift (emits_event_write log_not_touches)) fun _ => trivial

theorem enters_create_channel {scope : ChannelScope} {name : Text} {c : ChannelId} :
    (table_index .channels).Enters LockMode.update C (create_channel tx p o scope name c) := by
  unfold create_channel
  refine Txn.Index.enters_bind (emits_lift emits_lock_actor) fun _ => ?_
  refine Txn.Index.enters_bind (emits_lift emits_lock_organization) fun found => ?_
  split
  · trivial
  have hname : ∀ scope, entry_of (.channel c) ⟨o, scope, name, 0⟩
      = some (channel_name_index o scope name).entry :=
    fun scope => congrArg some (channel_name_index_entry o scope name).symm
  have hrecord : ∀ e : Event, Txn.Prog.Emits (fun u => ¬ (table_index .channels).touches u)
      ((liftM (e.write (begin tx (.actor p)) o p) : Sql CreateChannelError Unit) >>= fun _ => pure c) :=
    fun e => Txn.Prog.emits_bind (emits_lift (emits_event_write log_not_touches)) fun _ => trivial
  dsimp only
  split
  · refine Txn.Index.Enters.bind (Txn.Index.enters_mapError.mpr ?_) fun _ => hrecord _
    exact enters_insert rfl (hname _) (channel_name_index_sees o _ name)
  · refine Txn.Index.enters_bind (emits_lift emits_select) fun _ => ?_
    refine Txn.Index.enters_bind emits_ensure fun _ => ?_
    refine Txn.Index.Enters.bind (Txn.Index.enters_mapError.mpr ?_) fun _ => hrecord _
    exact enters_insert rfl (hname _) (channel_name_index_sees o _ name)

theorem enters_create_invite {T : Type} {new_token : Unit → Option (T × TokenHash)}
    {expires_at : Instant} {n : ℤ} {i : InviteId} : (table_index .invites).Enters LockMode.update C
      (create_invite tx p o new_token expires_at n i) := by
  unfold create_invite
  refine Txn.Index.enters_bind (emits_lift emits_lock_actor) fun _ => ?_
  refine Txn.Index.enters_bind (emits_lift emits_lock_organization) fun found => ?_
  split
  · trivial
  refine Txn.Index.enters_bind (emits_lift emits_authorize) fun access => ?_
  split
  · trivial
  · trivial
  split
  · trivial
  rename_i token hash _
  refine Txn.Index.Enters.bind (enters_lift ?_) fun inserted => ?_
  · unfold insert_from
    refine Txn.Index.enters_bind emits_snapshot fun db => ?_
    split
    · refine Txn.Index.Enters.bind ?_ fun _ => trivial
      exact enters_insert_row rfl rfl (invite_token_index_sees hash)
    · trivial
  split
  · trivial
  · trivial
  · exact Txn.Prog.emits_bind (emits_lift (emits_event_write log_not_touches)) fun _ => trivial

theorem enters_sign_in {T : Type} {email : Text} {verify : Text → Bool}
    {new_token : Unit → Option (T × TokenHash)} {expires_at : Instant} {i : SessionId} :
    (table_index .sessions).Enters LockMode.update C
      (sign_in tx email verify new_token expires_at i) := by
  unfold sign_in
  split
  · trivial
  refine Txn.Index.enters_bind (emits_lift emits_select) fun person => ?_
  dsimp only
  split
  · trivial
  refine Txn.Index.enters_bind (emits_lift emits_lock_actor) fun departed => ?_
  split
  · trivial
  refine Txn.Index.enters_bind (emits_lift emits_select) fun still => ?_
  split
  · trivial
  split
  · trivial
  rename_i token hash _
  refine Txn.Index.Enters.bind (enters_lift ?_) fun _ => trivial
  exact enters_insert rfl rfl (session_token_index_sees hash)

theorem enters_accept_invite {hash : TokenHash} {email password_hash name : Text} {a : ActorId} :
    (table_index .users).Enters LockMode.update C
      (accept_invite tx hash email password_hash name a) := by
  unfold accept_invite
  refine Txn.Index.enters_bind (emits_lift ?_) fun used => ?_
  · unfold use_invite
    refine Txn.Prog.emits_bind emits_snapshot fun db => ?_
    split
    · trivial
    · refine Txn.Prog.emits_bind (emits_update_row fun _ => not_touches (by rintro ⟨⟩)) fun _ => ?_
      trivial
  split
  · trivial
  dsimp only
  split
  · trivial
  refine Txn.Index.Enters.bind (Txn.Index.enters_mapError.mpr enters_create_person) fun _ => ?_
  refine Txn.Prog.emits_bind (emits_lift (emits_insert fun _ _ => not_touches (by rintro ⟨⟩))) fun _ => ?_
  exact Txn.Prog.emits_bind (emits_lift (emits_event_write log_not_touches)) fun _ => trivial

theorem enters_post_message {channel : ChannelId} {sender : ActorId} {id : MessageId} {body : Text} :
    (table_index .messages).Enters LockMode.update C (post_message tx o channel sender id body) := by
  unfold post_message
  split
  · trivial
  refine Txn.Index.enters_bind (emits_lift ?_) fun counter => ?_
  · exact Txn.Prog.emits_bind emits_snapshot fun db =>
      emits_update_row fun _ => not_touches (by rintro ⟨⟩)
  split
  · trivial
  rename_i counter
  refine Txn.Index.Enters.bind (enters_lift ?_) fun inserted => ?_
  · refine Txn.Index.enters_bind emits_snapshot fun db => ?_
    exact enters_insert_row rfl rfl (channel_seq_index_sees channel counter.next_message_seq)
  split
  · exact emits_lift_message
  · refine Txn.Prog.emits_bind (emits_lift emits_select) fun stored => ?_
    split
    · trivial
    · exact emits_lift_message

end Operations

/-- Is the call there to add a row under `k`? -/
def Call.creates (c : Call) (k : Key) : Prop :=
  match c with
  | .create_person _ _ _ a => k = .actor a ∨ k = .user a
  | .create_organization a _ _ o => k = .organization o ∨ k = .member o a
  | .create_team _ _ _ t => k = .team t
  | .add_team_member _ _ t a _ => k = .teamMember t a
  | .create_channel _ _ _ _ c => k = .channel c
  | .add_channel_member _ _ c a => k = .channelMember c a
  | .post_message _ _ _ id _ => k = .message id
  | .create_invite _ _ _ _ _ i => k = .invite i
  | .accept_invite _ _ _ _ a => k = .actor a ∨ k = .user a ∨ ∃ o, k = .member o a
  | .sign_in _ _ _ _ i => k = .session i
  | _ => False

/-- The row with a unique entry that a call inserts. -/
def Call.inserts : Call → Option Key
  | .create_person _ _ _ a => some (.user a)
  | .create_organization _ _ _ o => some (.organization o)
  | .create_channel _ _ _ _ c => some (.channel c)
  | .post_message _ _ _ id _ => some (.message id)
  | .create_invite _ _ _ _ _ i => some (.invite i)
  | .accept_invite _ _ _ _ a => some (.user a)
  | .sign_in _ _ _ _ i => some (.session i)
  | _ => none

/-- **Every call enters the index of what it inserts.** One case for each of the seven calls that
insert a row with an entry; each of them inserts one such row. -/
theorem enters_body {q : Request} {k : Key} {t : Table} (hk : q.call.inserts = some k)
    (ht : k.table = some t) {C : List Resource} :
    (table_index t).Enters LockMode.update C q.body := by
  obtain ⟨c, tx⟩ := q
  cases c with
  | create_person =>
      cases hk
      cases ht
      exact Txn.Index.enters_answer.mpr enters_create_person
  | create_organization =>
      cases hk
      cases ht
      exact Txn.Index.enters_answer.mpr enters_create_organization
  | create_channel =>
      cases hk
      cases ht
      exact Txn.Index.enters_answer.mpr enters_create_channel
  | post_message =>
      cases hk
      cases ht
      exact Txn.Index.enters_answer.mpr enters_post_message
  | create_invite =>
      cases hk
      cases ht
      exact Txn.Index.enters_answer.mpr enters_create_invite
  | accept_invite =>
      cases hk
      cases ht
      exact Txn.Index.enters_answer.mpr enters_accept_invite
  | sign_in =>
      cases hk
      cases ht
      exact Txn.Index.enters_answer.mpr enters_sign_in
  | _ => cases hk

/-! ## Commits -/

section Commits

variable {guarded : Bool} {q : Request} {L : Held} {ws : List Write} {reply : Reply} {db : Database}

/-- A row that a commit writes and finds there keeps its entry: the columns of the unique indexes
are never updated. -/
theorem CommitSpec.entry_stays (h : CommitSpec guarded q ws reply db)
    (hd : Disciplined q.call L ws db) {k : Key} {x r : Row k} (hput : Write.put k (some r) ∈ ws)
    (hx : db.rows.get k = some x) : entry_of k r = entry_of k x := by
  have heffect := h.effect hput
  have hfixed := (hd k (some r) hput).fixed r rfl
  generalize hr : some r = y at heffect
  cases heffect with
  | organization_created _ _ _ _ _ hnone | channel_created _ _ _ _ _ _ _ hnone
  | invite_created _ _ _ _ hnone | session_opened _ _ _ hnone => cases hnone.symm.trans hx
  | user_created | message_sent =>
      have hnone := hfixed rfl
      cases hnone.symm.trans hx
  | channel_counted _ _ _ _ _ _ y _ hsent =>
      cases hsent.channel.symm.trans hx
      cases hr
      rfl
  | invite_revoked _ y _ _ hy =>
      cases hy.symm.trans hx
      cases hr
      rfl
  | invite_used _ y _ hy =>
      cases hy.symm.trans hx
      cases hr
      rfl
  | session_revoked _ y _ _ hy =>
      cases hy.symm.trans hx
      cases hr
      rfl
  -- A departure deletes the personal rows that have an entry.
  | departed _ _ y _ _ _ hpersonal hy _ =>
      cases hy.symm.trans hx
      cases k with
      | user | session => cases hr
      | actor | member | teamMember | channelMember => rfl
      | _ => cases hpersonal
  | _ => rfl

/-- A change of one row puts that row, and no other. -/
theorem Change.mem_put {p : ActorId} {o : OrganizationId} {e : Event} {k k' : Key}
    {r : Option (Row k)} {r' : Option (Row k')} (h : Change ws db p o e [.put k r])
    (hput : Write.put k' r' ∈ ws) : k' = k := by
  by_contra hne
  rw [h.writes] at hput
  simp only [List.singleton_append, List.mem_cons, List.not_mem_nil, or_false] at hput
  rcases hput with hput | hput
  · cases hput
    exact hne rfl
  · cases hput

/-- **The rows that a commit adds** are the ones its call is there to add. Read off the guarantee,
call by call; a departure adds none. -/
theorem CommitSpec.creates (h : CommitSpec guarded q ws reply db) {k : Key} {r : Row k}
    (hput : Write.put k (some r) ∈ ws) (hnew : db.rows.get k = none) : q.call.creates k := by
  obtain ⟨c, tx⟩ := q
  cases c with
  | create_person email hash name a =>
      obtain ⟨-, -, rfl⟩ := h
      simp only [List.mem_cons, List.not_mem_nil, or_false] at hput
      rcases hput with hput | hput <;> cases hput
      · exact .inl rfl
      · exact .inr rfl
  | create_organization creator name slug o =>
      obtain ⟨-, -, -, rfl⟩ := h
      simp only [List.mem_cons, List.not_mem_nil, or_false] at hput
      rcases hput with hput | hput | hput | hput <;> cases hput
      · exact .inl rfl
      · exact .inr rfl
  | change_member_role p o a role =>
      rcases h with rfl | ⟨x, hx, -, -, -, hchange⟩
      · cases hput
      · obtain rfl := hchange.mem_put hput
        cases hnew.symm.trans hx
  | suspend_member p o a =>
      obtain ⟨x, hx, -, -, hchange⟩ := h
      obtain rfl := hchange.mem_put hput
      cases hnew.symm.trans hx
  | reactivate_member p o a =>
      obtain ⟨x, hx, -, hchange⟩ := h
      obtain rfl := hchange.mem_put hput
      cases hnew.symm.trans hx
  -- A departure writes only rows that it found.
  | leave_service a =>
      obtain ⟨-, x, hx, -, -⟩ := (h.puts k _).mp hput
      cases hnew.symm.trans hx
  | create_team p o name t => exact h.2.mem_put hput
  | add_team_member p o t a role =>
      obtain ⟨-, -, -, hchange⟩ := h
      exact hchange.mem_put hput
  | change_team_member_role p o t a role =>
      rcases h with rfl | ⟨x, hx, -, -, hchange⟩
      · cases hput
      · obtain rfl := hchange.mem_put hput
        cases hnew.symm.trans hx
  | remove_team_member p o t a =>
      obtain ⟨x, hx, -, hchange⟩ := h
      obtain rfl := hchange.mem_put hput
      cases hnew.symm.trans hx
  | create_channel p o scope name c => exact h.2.2.mem_put hput
  | add_channel_member p o c a =>
      obtain ⟨-, -, -, hchange⟩ := h
      exact hchange.mem_put hput
  | post_message o c sender id body =>
      obtain ⟨m, -, ⟨-, -, x, hsent⟩ | ⟨-, -, rfl⟩⟩ := h
      · rw [hsent.writes] at hput
        simp only [List.mem_cons, List.not_mem_nil, or_false] at hput
        rcases hput with hput | hput <;> cases hput
        · -- The channel is there already.
          cases hnew.symm.trans hsent.channel
        · rfl
      · cases hput
  | create_invite p o token expires n i =>
      obtain ⟨t, hash, -, -, -, -, hchange⟩ := h
      exact hchange.mem_put hput
  | revoke_invite p o i =>
      rcases h with rfl | ⟨i, x, -, hx, -, -, -, hchange⟩
      · cases hput
      · obtain rfl := hchange.mem_put hput
        cases hnew.symm.trans hx
  | accept_invite hash email pw name a =>
      obtain ⟨i, x, hx, -, -, -, -, -, rfl⟩ := h
      simp only [List.mem_cons, List.not_mem_nil, or_false] at hput
      rcases hput with hput | hput | hput | hput | hput <;> cases hput
      · -- The invite is there already.
        cases hnew.symm.trans hx
      · exact .inl rfl
      · exact .inr (.inl rfl)
      · exact .inr (.inr ⟨_, rfl⟩)
  | sign_in email verify token expires i =>
      obtain ⟨t, hash, -, a, -, -, -, rfl⟩ := h
      cases List.mem_singleton.mp hput
      rfl
  | revoke_session a hash =>
      obtain ⟨i, x, now, hx, rfl⟩ := h
      cases List.mem_singleton.mp hput
      cases hnew.symm.trans hx
  | messages_before | messages_after | invite_is_usable | resolve_session | me =>
      cases h
      cases hput

/-- The one row with an entry that a commit adds is the one its call inserts. -/
theorem CommitSpec.inserts (h : CommitSpec guarded q ws reply db) {k : Key} {r : Row k}
    (hput : Write.put k (some r) ∈ ws) (hnew : db.rows.get k = none) {e : UniqueEntry}
    (hentry : entry_of k r = some e) : q.call.inserts = some k := by
  have hcreates := h.creates hput hnew
  obtain ⟨c, tx⟩ := q
  cases c with
  | create_person | create_organization =>
      rcases hcreates with rfl | rfl
      all_goals first | rfl | cases hentry
  | accept_invite =>
      rcases hcreates with rfl | rfl | ⟨o, rfl⟩
      · cases hentry
      · rfl
      · cases hentry
  | create_channel | post_message | create_invite | sign_in =>
      cases hcreates
      rfl
  | create_team | add_team_member | add_channel_member =>
      cases hcreates
      cases hentry
  | _ => cases hcreates

end Commits

/-! ## All runs -/

/-- The row that a commit inserts has its entry locked, and nobody uses it. -/
def Entering (q : Request) (L : Held) (ws : List Write) (db : Database) : Prop :=
  ∀ k t, q.call.inserts = some k → k.table = some t →
    (table_index t).Entered LockMode.update L ws db

/-- The rules of all calls, with the entries they lock. -/
def indexRules : Txn.Rules (engine anyCall) where
  valid w := Consistent w.store
  guar q L out w := (allRules false).guar q L out w
    ∧ ∀ ws reply, out = .committed ws reply → Entering q L ws w.store
  presumes _ := []

/-- These rules promise what those of all calls promise, and more, so every walk can be taken over.
-/
theorem indexRules_refines : indexRules.Refines (allRules false) where
  valid _ h := h
  guar _ _ _ _ h := h.1
  presumes q := by
    rw [presumes_nothing]
    exact List.nil_subset _

/-- A row of the new state has an old row's entry, under the same key, or it is what the call
inserts, under an entry that nobody used and that is locked. The two cases are all that the proofs
below have to look at. -/
theorem entry_after {q : Request} {L : Held} {ws : List Write} {reply : Reply} {w : World}
    (hg : indexRules.guar q L (.committed ws reply) w) {k : Key} {r : Row k} {e : UniqueEntry}
    (hr : (view ws w.store).rows.get k = some r) (hentry : entry_of k r = some e) :
    (∃ x, w.store.rows.get k = some x ∧ entry_of k x = some e)
      ∨ q.call.inserts = some k ∧ (Resource.unique e, LockMode.update) ∈ L
        ∧ ∀ k' x, w.store.rows.get k' = some x → entry_of k' x ≠ some e := by
  obtain ⟨⟨hdisciplined, hspec, -⟩, hentering⟩ := hg
  rcases view_get ws w.store k with hsame | hput
  · exact .inl ⟨r, hsame.symm.trans hr, hentry⟩
  rw [hr] at hput
  cases hx : w.store.rows.get k with
  | some x =>
      refine .inl ⟨x, rfl, ?_⟩
      rw [← hspec.entry_stays hdisciplined hput hx, hentry]
  | none =>
      have hk := hspec.inserts hput hx hentry
      have htable := entry_table hentry
      have hmem : Resource.unique e ∈ (table_index e.table).entries (.put k (some r)) := by
        change Resource.unique e ∈ (entry_of k r).toList.map Resource.unique
        rw [hentry]
        exact List.mem_singleton_self _
      obtain ⟨hlock, hfree⟩ := hentering ws reply rfl k e.table hk htable _ hput
        ⟨k, some r, rfl, htable⟩ _ hmem
      exact .inr ⟨hk, hlock, fun k' x hx' hused => hfree ⟨e, k', x, rfl, rfl, hx', hused⟩⟩

/-- An entry that is free stays free for whoever has it locked: whoever came to use it would have
had it locked at its commit, and two calls do not hold one lock of this kind. -/
theorem indexRules_reserved (t : Table) : (table_index t).Reserved LockMode.update indexRules := by
  intro res L w w' hlock hl hfree
  refine Txn.Rules.Later.preserves (R := indexRules)
    (P := fun v : World => ¬ (table_index t).used v.store res) ?_ hl hfree
  rintro q K out v hnot hg hc hv ⟨e, k, r, rfl, ht, hr, hentry⟩
  cases out with
  | failed | aborted => exact hnot ⟨e, k, r, rfl, ht, hr, hentry⟩
  | committed ws reply =>
      rcases entry_after hg hr hentry with ⟨x, hx, hsame⟩ | ⟨-, hheld, -⟩
      · exact hnot ⟨e, k, x, rfl, ht, hx, hsame⟩
      · -- Both would have the entry locked.
        have hcompatible : LockMode.update.conflicts LockMode.update = false :=
          hc _ _ _ hlock (indexRules.subset_shown q K _ hheld)
        cases hcompatible

/-- **The rules with the entries are sound.** What is promised of the entries is shown from the
text of each call (`enters_body`), and the rest is what the rules of all calls give. -/
theorem indexRules_sound : indexRules.Sound where
  keeps q L out w hv hg := (sound false).keeps q L out w hv hg.1
  aborts _ _ _ _ := ⟨trivial, fun _ _ h => by cases h⟩
  bodies q w hv hmay := by
    have hbase := indexRules_refines.wp ((sound false).bodies q w hv hmay)
    have hentering : indexRules.wp (fun L ws _ w => Entering q L ws w.store) (fun _ _ _ => True)
        q.body ((engine anyCall).claims q) [] w := by
      -- A call that inserts nothing with an entry promises nothing of entries.
      cases hk : q.call.inserts with
      | none =>
          refine Txn.Rules.wp_always (fun L ws _ w k t hk' => ?_) fun _ _ _ => trivial
          cases hk.symm.trans hk'
      | some k =>
          cases ht : k.table with
          | none =>
              refine Txn.Rules.wp_always (fun L ws _ w k' t hk' ht' => ?_) fun _ _ _ => trivial
              cases hk.symm.trans hk'
              cases ht.symm.trans ht'
          | some t =>
              refine Txn.Rules.wp_mono (Txn.Index.wp_enters (indexRules_reserved t)
                (enters_body hk ht (C := [])) (fun _ h => absurd h List.not_mem_nil)
                fun _ h => absurd h List.not_mem_nil) ?_ fun _ _ _ h => h
              intro L ws _ w hentered k' t' hk' ht'
              cases hk.symm.trans hk'
              cases ht.symm.trans ht'
              exact hentered
    refine Txn.Rules.wp_mono (Txn.Rules.wp_and hbase hentering) ?_ ?_
    · rintro L ws reply w ⟨hcommits, hheld⟩ v hl hv
      refine ⟨hcommits v (indexRules_refines.later hl) hv, ?_⟩
      rintro _ _ ⟨⟩ k t hk ht
      exact (hheld k t hk ht).later (indexRules_reserved t) (List.Subset.refl L) hl
    · rintro L reply w ⟨hfails, -⟩ v hl hv
      exact ⟨hfails v (indexRules_refines.later hl) hv, (by rintro _ _ ⟨⟩)⟩

/-- Every run moves by endings that keep to their entries. -/
theorem reachable_index_later {s : System} (h : (engine anyCall).Reachable World.empty s) :
    indexRules.Later [] World.empty s.world := by
  have hv : indexRules.valid World.empty := Consistent.empty
  refine (indexRules_sound.reachable hv ?_).2
  exact Relation.ReflTransGen.mono
    (fun s _ hs => ⟨Txn.Rules.clear_of_presumes (fun _ => rfl) s, hs⟩) _ _ h

/-- One ending keeps the entries apart: of two rows with one entry both are old, or one is new, and
then nobody had used its entry. -/
theorem Unique.step {q : Request} {L : Held} {out : Outcome} {w : World} (h : Unique w.store)
    (hg : indexRules.guar q L out w) : Unique ((engine anyCall).finish q L out w).store := by
  cases out with
  | failed | aborted => exact h
  | committed ws reply =>
      intro k k' r r' e hr hr' hentry hentry'
      rcases entry_after hg hr hentry with ⟨x, hx, hsame⟩ | ⟨hk, -, hfree⟩
      · rcases entry_after hg hr' hentry' with ⟨x', hx', hsame'⟩ | ⟨-, -, hfree⟩
        · exact h k k' x x' e hx hx' hsame hsame'
        · exact absurd hsame (hfree k x hx)
      · rcases entry_after hg hr' hentry' with ⟨x', hx', hsame'⟩ | ⟨hk', -, -⟩
        · exact absurd hsame' (hfree k' x' hx')
        · exact Option.some.inj (hk.symm.trans hk')

/-- The unique indexes of the schema. -/
structure Distinct (db : Database) : Prop where
  email : ∀ a b r r', db.user a = some r → db.user b = some r' →
    lower r.email = lower r'.email → a = b
  slug : ∀ o o' r r', db.organization o = some r → db.organization o' = some r' →
    r.slug = r'.slug → o = o'
  channel_name : ∀ c c' r r', db.channel c = some r → db.channel c' = some r' →
    r.scope = r'.scope → (r.scope = .organization → r.organization_id = r'.organization_id) →
    lower r.name = lower r'.name → c = c'
  channel_seq : ∀ m m' r r', db.message m = some r → db.message m' = some r' →
    r.channel_id = r'.channel_id → r.channel_seq = r'.channel_seq → m = m'
  invite_token : ∀ i j r r', db.invite i = some r → db.invite j = some r' →
    r.token_hash = r'.token_hash → i = j
  session_token : ∀ i j r r', db.session i = some r → db.session j = some r' →
    r.token_hash = r'.token_hash → i = j

theorem Unique.distinct {db : Database} (h : Unique db) : Distinct db where
  email a b r r' hr hr' hsame :=
    Key.user.inj (h (.user a) (.user b) r r' _ hr hr' rfl
      (congrArg (fun x => some (UniqueEntry.email x)) hsame.symm))
  slug o o' r r' hr hr' hsame := Key.organization.inj
    (h (.organization o) (.organization o') r r' _ hr hr' rfl
      (congrArg (fun x => some (UniqueEntry.slug x)) hsame.symm))
  channel_name c c' r r' hr hr' hscope ho hname := by
    refine Key.channel.inj (h (.channel c) (.channel c') r r' _ hr hr' rfl ?_)
    change some (channel_name_entry r'.organization_id r'.name r'.scope)
      = some (channel_name_entry r.organization_id r.name r.scope)
    rw [← hscope]
    unfold channel_name_entry
    cases hcase : r.scope with
    | organization => rw [ho hcase, hname]
    | team t => rw [hname]
  channel_seq m m' r r' hr hr' hc hseq := by
    refine Key.message.inj (h (.message m) (.message m') r r' _ hr hr' rfl ?_)
    change some (UniqueEntry.channelSeq r'.channel_id r'.channel_seq) = _
    rw [← hc, ← hseq]
  invite_token i j r r' hr hr' hsame := Key.invite.inj
    (h (.invite i) (.invite j) r r' _ hr hr' rfl
      (congrArg (fun x => some (UniqueEntry.inviteToken x)) hsame.symm))
  session_token i j r r' hr hr' hsame := Key.session.inj
    (h (.session i) (.session j) r r' _ hr hr' rfl
      (congrArg (fun x => some (UniqueEntry.sessionToken x)) hsame.symm))

/-- No run lets two rows have one entry, by induction over the endings. -/
theorem reachable_unique {s : System} (h : (engine anyCall).Reachable World.empty s) :
    Unique s.world.store := by
  refine Txn.Rules.Later.preserves (R := indexRules) (P := fun v : World => Unique v.store) ?_
    (reachable_index_later h) Unique.empty
  intro q L out w hw hg _ _
  exact hw.step hg

/-- **The unique indexes hold**, in every committed state of every run, however the calls
overlap. -/
theorem unique_indexes_hold {s : System} (h : (engine anyCall).Reachable World.empty s) :
    Distinct s.world.store :=
  (reachable_unique h).distinct

/-- Two people, and an organization. -/
theorem unique_indexes_hold_founding : ∃ s : System, (engine anyCall).Reachable World.empty s
    ∧ (s.world.store.user ⟨1⟩).isSome = true ∧ (s.world.store.user ⟨2⟩).isSome = true
    ∧ Distinct s.world.store := by
  obtain ⟨s, hs, hcheck⟩ := reachable_of_serve 100 founding
    (fun s => (s.world.store.user ⟨1⟩).isSome && (s.world.store.user ⟨2⟩).isSome)
    (by decide +kernel)
  rw [Bool.and_eq_true] at hcheck
  exact ⟨s, hs, hcheck.1, hcheck.2, unique_indexes_hold hs⟩

end Fukulow
