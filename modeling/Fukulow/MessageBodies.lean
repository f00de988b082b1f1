/-
Which bodies a post takes, and which the column `messages.body` can store.

`post_message` counts Unicode scalar values before it connects; the column is PostgreSQL
`text` with a `CHECK` on the same count. The counts agree, but `text` cannot hold U+0000,
which the count does not see: such a body passes the one check and fails the other.
-/
import Fukulow.Numbering
import Fukulow.Serial.Rules
import Fukulow.Serial.Runs
import Fukulow.Txn.Strengthening

set_option autoImplicit false

namespace Fukulow

/-- `CHECK (char_length(body) BETWEEN 1 AND 4000)` on `messages`, on a value of type `text`. -/
def messages_body_check (body : Text) : Bool :=
  storable body && 1 ≤ body.length && body.length ≤ 4000

variable {db₀ db : Database} {tx : Transaction} {o : OrganizationId} {c : ChannelId}
variable {sender : ActorId} {id : MessageId} {body : Text}

/-- PostgreSQL stores every text without U+0000. -/
theorem storable_iff : storable body = true ↔ '\x00' ∉ body := by
  simp [storable]

/-- The number of characters, as the operation counts them. -/
def in_length (body : Text) : Prop := 1 ≤ body.length ∧ body.length ≤ 4000

instance (body : Text) : Decidable (in_length body) := inferInstanceAs (Decidable (_ ∧ _))

/-- The check of the column, in words: no U+0000, and a length between one and four thousand. -/
theorem body_check_iff : messages_body_check body = true ↔ '\x00' ∉ body ∧ in_length body := by
  rw [messages_body_check, Bool.and_eq_true, Bool.and_eq_true, storable_iff, decide_eq_true_eq,
    decide_eq_true_eq, and_assoc]
  rfl

/-! ## The operation's own check -/

/-- The condition as the operation computes it. -/
theorem length_check (h : in_length body) :
    (decide (1 ≤ body.length) && decide (body.length ≤ 4000)) = true := by
  rw [Bool.and_eq_true, decide_eq_true_eq, decide_eq_true_eq]
  exact h

/-- A body of another length is refused before anything is read: the operation does not even
connect. -/
theorem post_message_refused (h : ¬ in_length body) :
    post_message tx o c sender id body = .throw .invalidBody := by
  have hlength : (decide (1 ≤ body.length) && decide (body.length ≤ 4000)) = false := by
    rw [Bool.eq_false_iff, ne_eq, Bool.and_eq_true, decide_eq_true_eq, decide_eq_true_eq]
    exact h
  rw [post_message, hlength]
  rfl

/-- Any other is never refused, whatever the statements see: no later step of the operation answers
`InvalidBody`. -/
theorem post_message_not_refused (h : in_length body) :
    (post_message tx o c sender id body).Raises (· ≠ .invalidBody) := by
  have hdatabase : ∀ e : SqlError, (FromSql.database e : PostMessageError) ≠ .invalidBody := by
    rintro e ⟨⟩
  have hlift : ∀ {α : Type} (p : Sql SqlError α),
      (liftM p : Sql PostMessageError α).Raises (· ≠ .invalidBody) :=
    fun p => Txn.Prog.raises_mapError (P := (· ≠ PostMessageError.invalidBody)) hdatabase p
  have hmessage : ∀ m, (lift_message m : Sql PostMessageError Message).Raises (· ≠ .invalidBody) := by
    intro m
    cases m with
    | ok m => trivial
    | error e => exact hdatabase e
  rw [post_message, length_check h]
  refine Txn.Prog.raises_bind (hlift _) fun counter => ?_
  cases counter with
  | none => rintro ⟨⟩
  | some counter =>
      refine Txn.Prog.raises_bind (hlift _) fun inserted => ?_
      cases inserted with
      | true => exact Txn.Prog.raises_bind (hmessage _) fun _ => trivial
      | false =>
          -- The second transaction looks the message up.
          change Txn.Prog.Raises _ (_ >>= _)
          refine Txn.Prog.raises_bind (hlift _) fun stored => ?_
          cases stored with
          | none => rintro ⟨⟩
          | some row => exact Txn.Prog.raises_bind (hmessage _) fun _ => trivial

/-! ## A post that the column takes -/

/-- The number a post takes is free: the counter's row has been updated by then, and every message
of the channel has a number up to the old value. -/
theorem channel_seq_free (hn : Numbered db) {r r' : ChannelRow} (hr : db.channel c = some r)
    {n : ℕ} (hn' : r.next_message_seq < n) :
    (channel_seq_index c n).taken ((Write.put (.channel c) (some r')).apply db) = false := by
  rw [Bool.eq_false_iff, ne_eq, channel_seq_index]
  intro htaken
  obtain ⟨k, m, x, hm, hread⟩ := Txn.Store.select_nonempty_iff.mp htaken
  cases k with
  | message x =>
      obtain ⟨⟨hch, hseq⟩, -⟩ := Option.ite_none_right_eq_some.mp hread
      rw [put_get_of_ne (by rintro ⟨⟩)] at hm
      obtain ⟨y, hy, -, hle⟩ := hn.range x m hm
      rw [hch, hr] at hy
      cases hy
      omega
  | _ => cases hread

/-- **`post_message`, alone**, by an active member, under a new id and within the range of the
counter: what the column can store is posted. -/
theorem solo_post_message {db₀ : Database} {r : ChannelRow} (hn : Numbered db)
    (href : References db) (hbody : messages_body_check body = true)
    (hactive : db.active o sender = true) (hr : db.channel c = some r)
    (ho : r.organization_id = o) (hid : db.message id = none)
    (hmax : r.next_message_seq < bigint_max) :
    (post_message tx o c sender id body).Solo Write.apply db₀
      (fun reply _ => reply = .posted
        ⟨id, c, ⟨r.next_message_seq + 1⟩, sender, body, tx.now⟩)
      (fun _ => False) db := by
  obtain ⟨htext, hlength⟩ := body_check_iff.mp hbody
  have hstorable : storable body = true := storable_iff.mpr htext
  have horg : db.organization o ≠ none := href.organization_of_active hactive
  have hactor : db.actor sender ≠ none := by
    obtain ⟨x, hx, -⟩ := Database.active_iff.mp hactive
    exact (href.member o sender x hx).2
  have hseen : ∀ db', db'.active o sender = true →
      fukulow_active_organizations (begin tx (.actor sender)) db' o = true := by
    intro db' h
    rwa [active_organizations_actor rfl]
  rw [post_message, length_check hlength]
  change ((liftM (update _ _ _ _) : Sql PostMessageError _) >>= _).Solo _ _ _ _ _
  rw [Txn.Prog.solo_bind, solo_lift]
  -- The counter is there, visible, and not at its end.
  refine solo_update_ok (r := r) (u := { r with next_message_seq := r.next_message_seq + 1 })
    ?_ ?_ ?_
  · rw [show db.rows.get (.channel c) = some r from hr, Option.filter_eq_some_iff]
    refine ⟨rfl, ?_⟩
    rw [channels_select, channels_update, ho, hseen db hactive, decide_eq_true rfl]
    rfl
  · rw [if_neg (by omega), channels_update, ho, if_pos (hseen db hactive)]
  · generalize hdb' : (Write.put (.channel c) _).apply db = db'
    have hactive' : db'.active o sender = true := by
      rw [← hdb', put_active_of_ne (by rintro ⟨⟩)]
      exact hactive
    change ((liftM (insert_or_nothing _ _ _ _ _) : Sql PostMessageError _) >>= _).Solo _ _ _ _ _
    rw [Txn.Prog.solo_bind, solo_lift]
    refine solo_insert_ok ?_ ?_ ?_ ?_ ?_
    · change (if (!storable body) = true then Except.error SqlError.invalidText
        else if (!(fukulow_active_organizations (begin tx (.actor sender)) db' o
          && fukulow_active_organizations (begin tx (.actor sender)) db' o)) = true
        then Except.error SqlError.insufficientPrivilege
        else if (!true) = true then Except.error (SqlError.check "messages_body_check")
        else admit_if (1 ≤ r.next_message_seq + 1) _) = _
      rw [hstorable, hseen db' hactive',
        decide_eq_true (Nat.le_add_left 1 r.next_message_seq)]
      rfl
    · rw [← hdb', put_get_of_ne (by rintro ⟨⟩)]
      exact hid
    · rw [List.forall_mem_singleton, ← hdb']
      exact channel_seq_free hn hr (Nat.lt_succ_self _)
    · have hchannel : db'.channel c = some { r with next_message_seq := r.next_message_seq + 1 } := by
        rw [← hdb']
        exact Txn.Store.get_put_self _ _ _
      rw [List.forall_mem_cons, List.forall_mem_cons, List.forall_mem_singleton]
      refine ⟨Reference.holds_of_put ?_ (by rintro ⟨⟩), Reference.holds_of_put ?_ (by rintro ⟨⟩),
        Reference.holds_of_some ((put_get_of_ne (by rintro ⟨⟩)).trans hchannel) (decide_eq_true ho)⟩
      · rw [← hdb', put_get_of_ne (by rintro ⟨⟩)]
        exact horg
      · rw [← hdb', put_get_of_ne (by rintro ⟨⟩)]
        exact hactor
    · have hseq : (1 : ℤ) ≤ (r.next_message_seq + 1 : ℕ) := by omega
      have hmessage : Message.try_from id ⟨o, c, r.next_message_seq + 1, sender, body, tx.now⟩
          = .ok ⟨id, c, ⟨r.next_message_seq + 1⟩, sender, body, tx.now⟩ := by
        rw [Message.try_from, ChannelSeq.new, if_pos hseq]
        rfl
      change ((lift_message (Message.try_from id ⟨o, c, r.next_message_seq + 1, sender, body, tx.now⟩) :
        Sql PostMessageError Message) >>= fun m => pure (PostMessage.posted m)).Solo _ _ _ _ _
      rw [hmessage]
      exact rfl

/-! ## Bodies on which the two checks agree -/

/-- The check of `post_message` decides whether the column can store `body`: the operation
answers `InvalidBody` exactly when it cannot, whatever else there is to say about the call; and
a post of it by an active member, alone, to a channel of the organization, under a new id and
within the range of the counter, does not end in a `Database` error. -/
structure DecidesStorable (body : Text) : Prop where
  refuses : messages_body_check body = false → ∀ tx o c sender id,
    post_message tx o c sender id body = .throw .invalidBody
  accepts : messages_body_check body = true → ∀ tx o c sender id,
    (post_message tx o c sender id body).Raises (· ≠ .invalidBody)
  posts : ∀ s : System, (engine anyCall).Reachable World.empty s → ∀ tx c sender id r,
    s.world.store.channel c = some r → s.world.store.active r.organization_id sender = true →
    s.world.store.message id = none → r.next_message_seq < bigint_max → ∀ e,
    (Request.alone ⟨.post_message r.organization_id c sender id body, tx⟩ s.world.store).1
      ≠ .error (.post_message (.error (.database e)))

/-- **The body check is exact on every body without U+0000, and on no other of its length.** The
characters are counted alike on both sides; a body of another length fails both checks; and U+0000
is the one character that the operation counts and the column cannot hold. -/
theorem body_check_exact (body : Text) :
    DecidesStorable body ↔ '\x00' ∉ body ∨ ¬ in_length body := by
  constructor
  · intro h
    by_contra hnot
    rw [not_or, not_not, not_not] at hnot
    -- The column refuses the body, so both fields speak about one call.
    have hcheck : messages_body_check body = false := by
      rw [Bool.eq_false_iff, ne_eq, body_check_iff]
      exact fun hstored => hstored.1 hnot.1
    have hthrow := h.refuses hcheck ⟨0, 0⟩ ⟨0⟩ ⟨0⟩ ⟨0⟩ (sampleId 0)
    have hraises : (post_message ⟨0, 0⟩ ⟨0⟩ ⟨0⟩ ⟨0⟩ (sampleId 0) body).Raises (· ≠ .invalidBody) :=
      post_message_not_refused hnot.2
    rw [hthrow] at hraises
    exact hraises rfl
  · intro h
    refine ⟨?_, ?_, ?_⟩
    · intro hcheck tx o c sender id
      refine post_message_refused fun hlength => ?_
      have hstored : messages_body_check body = true :=
        body_check_iff.mpr ⟨h.resolve_right fun hnot => hnot hlength, hlength⟩
      cases hcheck.symm.trans hstored
    · intro hcheck tx o c sender id
      exact post_message_not_refused (body_check_iff.mp hcheck).2
    · intro s hs tx c sender id r hr hactive hid hmax e herror
      by_cases hlength : in_length body
      · have hcheck : messages_body_check body = true :=
          body_check_iff.mpr ⟨h.resolve_right fun hnot => hnot hlength, hlength⟩
        obtain ⟨a, t, heq, -⟩ | ⟨-, -, hfalse⟩ := alone_of_solo
          (q := ⟨.post_message r.organization_id c sender id body, tx⟩) rfl
          (solo_post_message (reachable_numbered hs) (reachable_references hs) hcheck hactive hr rfl
            hid hmax)
        · rw [heq] at herror
          cases herror
        · exact hfalse
      · have hbody : Request.body ⟨.post_message r.organization_id c sender id body, tx⟩
            = (post_message tx r.organization_id c sender id body).answer .post_message := rfl
        rw [Request.alone, hbody, post_message_refused hlength] at herror
        cases herror

/-- Does the call, alone, fail at the text of the body? -/
def Request.text_refused (q : Request) (db : Database) : Bool :=
  match (q.alone db).1 with
  | .error (.post_message (.error (.database .invalidText))) => true
  | _ => false

/-- The computed condition is the one in words. -/
theorem Request.text_refused_iff {q : Request} : q.text_refused db = true ↔
    (q.alone db).1 = .error (.post_message (.error (.database .invalidText))) := by
  unfold Request.text_refused
  split
  · rename_i heq
    exact ⟨fun _ => heq, fun _ => rfl⟩
  · rename_i hne
    exact ⟨(by rintro ⟨⟩), fun heq => absurd heq hne⟩

/-- U+0000 alone: one character, as both sides count, and nothing a column of type `text` can
store. The member who posts it to the channel of its organization gets a `Database` error. -/
theorem nul_body_is_a_database_error : messages_body_check ['\x00'] = false
    ∧ ∃ s : System, ∃ r, (engine anyCall).Reachable World.empty s
      ∧ s.world.store.channel ⟨40⟩ = some r ∧ r.next_message_seq < bigint_max
      ∧ s.world.store.active r.organization_id ⟨1⟩ = true
      ∧ s.world.store.message (sampleId 2) = none
      ∧ (Request.alone ⟨.post_message r.organization_id ⟨40⟩ ⟨1⟩ (sampleId 2) ['\x00'], ⟨0, 8⟩⟩
          s.world.store).1 = .error (.post_message (.error (.database .invalidText))) := by
  refine ⟨by decide, ?_⟩
  obtain ⟨s, hs, hcheck⟩ := reachable_of_serve 100 conversation (fun s =>
    (s.world.store.channel ⟨40⟩).any fun r => r.next_message_seq < bigint_max
      && s.world.store.active r.organization_id ⟨1⟩
      && (s.world.store.message (sampleId 2)).isNone
      && Request.text_refused ⟨.post_message r.organization_id ⟨40⟩ ⟨1⟩ (sampleId 2) ['\x00'],
        ⟨0, 8⟩⟩ s.world.store)
    (by decide +kernel)
  obtain ⟨r, hr, hcheck⟩ := (Option.any_eq_true _ _).mp hcheck
  rw [Bool.and_eq_true, Bool.and_eq_true, Bool.and_eq_true, decide_eq_true_eq,
    Option.isNone_iff_eq_none, Request.text_refused_iff] at hcheck
  obtain ⟨⟨⟨hmax, hactive⟩, hnew⟩, hanswer⟩ := hcheck
  exact ⟨s, r, hs, hr, hmax, hactive, hnew, hanswer⟩

end Fukulow
