/-
Channel numbering has no gap, no duplicate and no late arrival.

A message and the counter of its channel are written by the same commit (`Sent`), and the
counter's row lock keeps other posts out until then: what a commit counts on is the
counter as it stands at the commit. So every committed state numbers the messages of a
channel by exactly `1 .. next_message_seq`, and stored messages stay as they are.
-/
import Fukulow.Consistency

set_option autoImplicit false

namespace Fukulow

variable {guarded : Bool} {q : Request} {ws : List Write} {reply : Reply} {db : Database}

/-! ## One send -/

section Sent

variable {id : MessageId} {m : MessageRow} {c : ChannelRow}

/-- A send stores its message under the id that it was given, -/
theorem Sent.message_self (h : Sent ws db id m c) : (view ws db).message id = some m := by
  refine view_get_of_put (k := .message id) (by simp [h.writes]) ?_
  intro r hr
  simpa [h.writes] using hr

/-- and no other message; -/
theorem Sent.message_other (h : Sent ws db id m c) {id' : MessageId} (hne : id' ≠ id) :
    (view ws db).message id' = db.message id' := by
  refine view_get_of_untouched (k := .message id') ?_
  intro r hr
  simp [h.writes, hne] at hr

/-- it counts its channel, -/
theorem Sent.channel_self (h : Sent ws db id m c) : (view ws db).channel m.channel_id
    = some { c with next_message_seq := c.next_message_seq + 1 } := by
  refine view_get_of_put (k := .channel m.channel_id) (by simp [h.writes]) ?_
  intro r hr
  simpa [h.writes] using hr

/-- and no other channel. -/
theorem Sent.channel_other (h : Sent ws db id m c) {ch : ChannelId} (hne : ch ≠ m.channel_id) :
    (view ws db).channel ch = db.channel ch := by
  refine view_get_of_untouched (k := .channel ch) ?_
  intro r hr
  simp [h.writes, hne] at hr

end Sent

/-- A commit that sends nothing leaves messages and counters alone, but for a channel that is new
and has counted nothing. -/
theorem CommitSpec.nothing_sent (h : CommitSpec guarded q ws reply db)
    (hnot : ¬ ∃ id m c, Sent ws db id m c) :
    (∀ id, (view ws db).message id = db.message id)
      ∧ ∀ ch, (view ws db).channel ch = db.channel ch
        ∨ (db.channel ch = none ∧ ∃ r, (view ws db).channel ch = some r ∧ r.next_message_seq = 0) := by
  constructor
  · intro id
    obtain hsame | heffect := h.effect_or_same (.message id)
    · exact hsame
    · generalize (view ws db).rows.get (.message id) = r at heffect
      cases heffect with
      | message_sent _ _ _ _ _ m c _ hsent => exact absurd ⟨id, m, c, hsent⟩ hnot
      | departed _ _ _ _ _ _ hk => cases hk
  · intro ch
    obtain hsame | heffect := h.effect_or_same (.channel ch)
    · exact .inl hsame
    · generalize hr : (view ws db).rows.get (.channel ch) = r at heffect
      cases heffect with
      | channel_created _ _ o scope name _ _ hnone => exact .inr ⟨hnone, _, hr, rfl⟩
      | channel_counted _ _ _ id _ m c _ hsent => exact absurd ⟨id, m, c, hsent⟩ hnot
      | departed _ _ _ _ _ _ hk => cases hk

/-! ## The numbering -/

/-- The messages of every channel are numbered `1 .. next_message_seq`, each number once. -/
structure Numbered (db : Database) : Prop where
  range : ∀ id m, db.message id = some m → ∃ c, db.channel m.channel_id = some c
    ∧ 1 ≤ m.channel_seq ∧ m.channel_seq ≤ c.next_message_seq
  used : ∀ ch c n, db.channel ch = some c → 1 ≤ n → n ≤ c.next_message_seq →
    ∃ id m, db.message id = some m ∧ m.channel_id = ch ∧ m.channel_seq = n
  once : ∀ id id' m m', db.message id = some m → db.message id' = some m' →
    m'.channel_id = m.channel_id → m'.channel_seq = m.channel_seq → id' = id

theorem Numbered.empty : Numbered Database.empty where
  range _ _ h := by cases h
  used _ _ _ h := by cases h
  once _ _ _ _ h := by cases h

/-- A send takes the next number, and the counter says afterwards that it has been taken. Both are
in one commit, so no state lies between them. -/
theorem Sent.numbered {id : MessageId} {m : MessageRow} {c : ChannelRow}
    (h : Sent ws db id m c) (hn : Numbered db) : Numbered (view ws db) := by
  -- A message of the new state is the one sent, or an old one.
  have hcases : ∀ id' m', (view ws db).message id' = some m' →
      (id' = id ∧ m' = m) ∨ (id' ≠ id ∧ db.message id' = some m') := by
    intro id' m' hm'
    by_cases hid : id' = id
    · subst hid
      exact .inl ⟨rfl, Option.some.inj (hm'.symm.trans h.message_self)⟩
    · exact .inr ⟨hid, (h.message_other hid).symm.trans hm'⟩
  -- An old message of the channel has a smaller number.
  have hsmaller : ∀ id' m', db.message id' = some m' → m'.channel_id = m.channel_id →
      m'.channel_seq < m.channel_seq := by
    intro id' m' hm' hch
    obtain ⟨c', hc', -, hle⟩ := hn.range id' m' hm'
    rw [hch] at hc'
    cases h.channel.symm.trans hc'
    rw [h.seq]
    omega
  constructor
  · intro id' m' hm'
    obtain ⟨rfl, rfl⟩ | ⟨-, hold⟩ := hcases id' m' hm'
    · exact ⟨_, h.channel_self, by simp [h.seq], by simp [h.seq]⟩
    · obtain ⟨c', hc', hpos, hle⟩ := hn.range id' m' hold
      by_cases hch : m'.channel_id = m.channel_id
      · rw [hch] at hc' ⊢
        cases h.channel.symm.trans hc'
        exact ⟨_, h.channel_self, hpos, Nat.le_succ_of_le hle⟩
      · exact ⟨c', (h.channel_other hch).trans hc', hpos, hle⟩
  · intro ch c' n hc' hpos hle
    by_cases hch : ch = m.channel_id
    · subst hch
      cases h.channel_self.symm.trans hc'
      obtain hlast | hle := Nat.lt_or_ge c.next_message_seq n
      · refine ⟨id, m, h.message_self, rfl, ?_⟩
        have : n ≤ c.next_message_seq + 1 := hle
        rw [h.seq]
        omega
      · obtain ⟨id', m', hm', hch', hseq⟩ := hn.used m.channel_id c n h.channel hpos hle
        refine ⟨id', m', (h.message_other ?_).trans hm', hch', hseq⟩
        rintro rfl
        cases h.new.symm.trans hm'
    · obtain ⟨id', m', hm', hch', hseq⟩ :=
        hn.used ch c' n ((h.channel_other hch).symm.trans hc') hpos hle
      refine ⟨id', m', (h.message_other ?_).trans hm', hch', hseq⟩
      rintro rfl
      cases h.new.symm.trans hm'
  · intro id₁ id₂ m₁ m₂ hm₁ hm₂ hch hseq
    obtain ⟨rfl, rfl⟩ | ⟨-, hold₁⟩ := hcases id₁ m₁ hm₁ <;>
      obtain ⟨rfl, rfl⟩ | ⟨-, hold₂⟩ := hcases id₂ m₂ hm₂
    · rfl
    · have := hsmaller id₂ m₂ hold₂ hch
      omega
    · have := hsmaller id₁ m₁ hold₁ hch.symm
      omega
    · exact hn.once id₁ id₂ m₁ m₂ hold₁ hold₂ hch hseq

/-- **Every commit keeps the numbering**, by the two lemmas above. -/
theorem CommitSpec.numbered (h : CommitSpec guarded q ws reply db) (hn : Numbered db) :
    Numbered (view ws db) := by
  by_cases hsent : ∃ id m c, Sent ws db id m c
  · obtain ⟨id, m, c, hsent⟩ := hsent
    exact hsent.numbered hn
  · obtain ⟨hmessage, hchannel⟩ := h.nothing_sent hsent
    constructor
    · intro id m hm
      obtain ⟨c, hc, hpos, hle⟩ := hn.range id m ((hmessage id).symm.trans hm)
      obtain hsame | ⟨hnone, -⟩ := hchannel m.channel_id
      · exact ⟨c, hsame.trans hc, hpos, hle⟩
      · cases hnone.symm.trans hc
    · intro ch c n hc hpos hle
      obtain hsame | ⟨-, r, hr, hzero⟩ := hchannel ch
      · obtain ⟨id, m, hm, hrest⟩ := hn.used ch c n (hsame.symm.trans hc) hpos hle
        exact ⟨id, m, (hmessage id).trans hm, hrest⟩
      · cases hr.symm.trans hc
        omega
    · intro id id' m m' hm hm'
      exact hn.once id id' m m' ((hmessage id).symm.trans hm) ((hmessage id').symm.trans hm')

/-- A stored message stays as it is: no statement updates or deletes one. -/
theorem CommitSpec.message_stays (h : CommitSpec guarded q ws reply db) {id : MessageId}
    {m : MessageRow} (hm : db.message id = some m) : (view ws db).message id = some m := by
  obtain hsame | heffect := h.effect_or_same (.message id)
  · exact hsame.trans hm
  · generalize (view ws db).rows.get (.message id) = r at heffect
    cases heffect with
    | message_sent _ _ _ _ _ _ _ _ hsent => cases hsent.new.symm.trans hm
    | departed _ _ _ _ _ _ hk => cases hk

/-! ## Whole runs -/

variable {w w' : World}

/-- A stored message stays as it is, over any endings. -/
theorem later_message_stays {V : World → Prop} {allowed : Call → Bool}
    (h : (rules allowed guarded V).Later [] w w') {id : MessageId} {m : MessageRow}
    (hm : w.store.message id = some m) : w'.store.message id = some m := by
  refine Txn.Rules.Later.preserves (P := fun v : World => v.store.message id = some m) ?_ h hm
  intro q L o v hv hg _ _
  cases o with
  | committed ws reply => exact hg.2.1.message_stays hv
  | failed | aborted => exact hv

/-- Every committed state is numbered, by induction over the endings. -/
theorem reachable_numbered {s : System} (h : (engine anyCall).Reachable World.empty s) :
    Numbered s.world.store := by
  refine Txn.Rules.Later.preserves (P := fun v : World => Numbered v.store) ?_
    (reachable_later h) Numbered.empty
  intro q L o v hv hg _ _
  cases o with
  | committed ws reply => exact hg.2.1.numbered hv
  | failed | aborted => exact hv

/-- **Channel numbering.** In every committed state of every run the messages of a channel
are numbered by exactly `1 .. next_message_seq`, each number once, and none has another number;
so a message comes with all messages before it. A message numbered up to a cursor that a reader
has read up to was there for that reader. -/
theorem channel_numbering {s : System} (h : (engine anyCall).Reachable World.empty s) :
    (∀ ch c, s.world.store.channel ch = some c → ∀ n, (1 ≤ n ∧ n ≤ c.next_message_seq ↔
      ∃! id, ∃ m, s.world.store.message id = some m ∧ m.channel_id = ch ∧ m.channel_seq = n))
    ∧ (∀ id m, s.world.store.message id = some m → ∃ c, s.world.store.channel m.channel_id = some c
      ∧ 1 ≤ m.channel_seq ∧ m.channel_seq ≤ c.next_message_seq)
    ∧ (∀ id m n, s.world.store.message id = some m → 1 ≤ n → n < m.channel_seq →
      ∃ id' m', s.world.store.message id' = some m' ∧ m'.channel_id = m.channel_id
        ∧ m'.channel_seq = n)
    ∧ ∀ s', (engine anyCall).Steps s s' → ∀ ch c cursor, s.world.store.channel ch = some c →
      cursor ≤ c.next_message_seq → ∀ id m, s'.world.store.message id = some m →
      m.channel_id = ch → m.channel_seq ≤ cursor → s.world.store.message id = some m := by
  have hn := reachable_numbered h
  refine ⟨?_, hn.range, ?_, ?_⟩
  · intro ch c hc n
    constructor
    · rintro ⟨hpos, hle⟩
      obtain ⟨id, m, hm, hch, hseq⟩ := hn.used ch c n hc hpos hle
      refine ⟨id, ⟨m, hm, hch, hseq⟩, ?_⟩
      rintro id' ⟨m', hm', hch', hseq'⟩
      exact hn.once id id' m m' hm hm' (hch'.trans hch.symm) (hseq'.trans hseq.symm)
    · rintro ⟨id, ⟨m, hm, rfl, rfl⟩, -⟩
      obtain ⟨c', hc', hpos, hle⟩ := hn.range id m hm
      cases hc.symm.trans hc'
      exact ⟨hpos, hle⟩
  · intro id m n hm hpos hlt
    obtain ⟨c, hc, -, hle⟩ := hn.range id m hm
    exact hn.used m.channel_id c n hc hpos (hlt.le.trans hle)
  · intro s' hs ch c cursor hc hcursor id m hm hch hseq
    have hn' := reachable_numbered (h.trans hs)
    obtain ⟨-, -, hpos, -⟩ := hn'.range id m hm
    -- The number was in use already, and no other message can have it later.
    obtain ⟨id₀, m₀, hm₀, hch₀, hseq₀⟩ := hn.used ch c m.channel_seq hc hpos (hseq.trans hcursor)
    have hstays := later_message_stays (reachable_later_steps h hs) hm₀
    cases hn'.once id₀ id m₀ m hstays hm (hch.trans hch₀.symm) hseq₀.symm
    cases hstays.symm.trans hm
    exact hm₀

/-- A message id for each number. -/
def sampleId (n : Fin 16) : MessageId where
  uuid := 7 * 2 ^ 76 + 2 * 2 ^ 62 + n
  v7 := by revert n; decide +kernel

/-- Two messages to one channel, the first of them sent twice. -/
def conversation : List Request :=
  founding ++ [⟨.create_channel ⟨1⟩ ⟨10⟩ .organization ['c'] ⟨40⟩, ⟨0, 4⟩⟩,
    ⟨.post_message ⟨10⟩ ⟨40⟩ ⟨1⟩ (sampleId 0) ['x'], ⟨0, 5⟩⟩,
    ⟨.post_message ⟨10⟩ ⟨40⟩ ⟨1⟩ (sampleId 0) ['y'], ⟨0, 6⟩⟩,
    ⟨.post_message ⟨10⟩ ⟨40⟩ ⟨1⟩ (sampleId 1) ['z'], ⟨0, 7⟩⟩]

/-- After the conversation the second number is in use exactly once. -/
theorem channel_numbering_conversation : ∃ s : System, ∃ c,
    s.world.store.channel ⟨40⟩ = some c ∧ c.next_message_seq = 2
      ∧ ∃! id, ∃ m, s.world.store.message id = some m ∧ m.channel_id = ⟨40⟩ ∧ m.channel_seq = 2 := by
  obtain ⟨s, hs, hcheck⟩ := reachable_of_serve 100 conversation
    (fun s => (s.world.store.channel ⟨40⟩).any fun c => c.next_message_seq = 2)
    (by decide +kernel)
  obtain ⟨c, hc, hseq⟩ := (Option.any_eq_true _ _).mp hcheck
  have htwo : c.next_message_seq = 2 := of_decide_eq_true hseq
  exact ⟨s, c, hc, htwo, ((channel_numbering hs).1 ⟨40⟩ c hc 2).mp ⟨by decide, htwo.ge⟩⟩

end Fukulow
