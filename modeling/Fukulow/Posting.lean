/-
Posting is exactly-once per message id.

The sends of one message id, organization, channel and sender are read off the history in
commit order: the first that returned is the one that stored the message, the others found
it. An `IdConflict` is decided in a second transaction, by a state in which the call could
see no message of its own under the id although there was one: had its sender been a
member, the message was another's.
-/
import Fukulow.Numbering

set_option autoImplicit false

namespace Fukulow

/-- What the finished calls with this id, organization, channel and sender returned, in the
order of their commits. -/
def sends (w : World) (id : MessageId) (o : OrganizationId) (c : ChannelId) (sender : ActorId) :
    List PostMessage :=
  w.history.filterMap fun e => match e.call.call, e.outcome with
    | .post_message o' c' sender' id' _, .committed _ (.post_message (.ok r)) =>
        if id' = id ∧ o' = o ∧ c' = c ∧ sender' = sender then some r else none
    | _, _ => none

/-- Is this the call of a `post_message`? -/
def Call.posts : Call → Bool
  | .post_message .. => true
  | _ => false

/-- What the committed states and the history say about posting. -/
structure Exact (w : World) : Prop where
  lasting : ∀ db ∈ w.states, ∀ id r, db.message id = some r → w.store.message id = some r
  stored : ∀ id r, w.store.message id = some r → ∃ n,
    sends w id r.organization_id r.channel_id r.sender_actor_id
      = .posted (r.message id) :: List.replicate n (.alreadyPosted (r.message id))
  known : ∀ id o c sender, sends w id o c sender ≠ [] →
    ∃ r, w.store.message id = some r ∧ r.from_ o c sender
  unchanged : ∀ e ∈ w.history, e.call.call.posts = true →
    (∀ ws m, e.outcome ≠ .committed ws (.post_message (.ok (.posted m)))) → e.outcome.writes = []

theorem Exact.empty : Exact World.empty where
  lasting := by
    intro db hdb id r hr
    cases List.mem_singleton.mp hdb
    exact hr
  stored _ _ h := by cases h
  known _ _ _ _ h := absurd rfl h
  unchanged _ h := absurd h List.not_mem_nil

variable {w : World} {q : Request} {L : Held} {ws : List Write} {reply : Reply}
variable {id : MessageId} {o : OrganizationId} {c : ChannelId} {sender : ActorId} {body : Text}

/-! ## The history of one more ending -/

theorem sends_finish (out : Outcome) : sends ((engine anyCall).finish q L out w) id o c sender
    = sends w id o c sender ++ sends ⟨w.store, [⟨q, L, out, w.store⟩]⟩ id o c sender :=
  List.filterMap_append

/-- An ending that is no successful `post_message` is no send. -/
theorem sends_of_other {out : Outcome} {db : Database} (h : q.call.posts = true →
    ∀ ws r, out ≠ .committed ws (.post_message (.ok r))) :
    sends ⟨db, [⟨q, L, out, db⟩]⟩ id o c sender = [] := by
  obtain ⟨call, tx⟩ := q
  cases call with
  | post_message o' c' sender' id' body =>
      cases out with
      | committed ws reply =>
          cases reply with
          | post_message result =>
              cases result with
              | ok r => exact absurd rfl (h rfl ws r)
              | error e => rfl
          | _ => rfl
      | failed | aborted => rfl
  | _ => rfl

/-- A successful `post_message` is a send of its own id and arguments, and of no other: the lists
of sends of different arguments do not get into each other's way. -/
theorem sends_of_post {r : PostMessage} {db : Database} (hq : q.call = .post_message o c sender id body)
    {id' : MessageId} {o' : OrganizationId} {c' : ChannelId} {sender' : ActorId} :
    sends ⟨db, [⟨q, L, .committed ws (.post_message (.ok r)), db⟩]⟩ id' o' c' sender'
      = if id = id' ∧ o = o' ∧ c = c' ∧ sender = sender' then [r] else [] := by
  simp only [sends, hq, List.filterMap_cons, List.filterMap_nil]
  split <;> split <;> simp_all

/-- What was ever stored stays stored, over one more ending. -/
theorem Exact.lasting_finish (h : Exact w) {out : Outcome}
    (hstays : ∀ id r, w.store.message id = some r →
      ((engine anyCall).finish q L out w).store.message id = some r)
    {db : Database} (hdb : db ∈ ((engine anyCall).finish q L out w).states) {r : MessageRow}
    (hr : db.message id = some r) :
    ((engine anyCall).finish q L out w).store.message id = some r := by
  obtain hdb | rfl := Txn.Engine.mem_states_finish _ hdb
  · exact hstays id r (h.lasting db hdb id r hr)
  · exact hr

/-- An ending that leaves the messages alone and is no send: all four facts are about what it has
left alone. -/
theorem Exact.other (h : Exact w) {out : Outcome}
    (hmessage : ∀ id, ((engine anyCall).finish q L out w).store.message id = w.store.message id)
    (hsends : q.call.posts = true → ∀ ws r, out ≠ .committed ws (.post_message (.ok r)))
    (hwrites : q.call.posts = true → out.writes = []) :
    Exact ((engine anyCall).finish q L out w) where
  lasting _ hdb _ _ hr := h.lasting_finish (fun id _ hr => (hmessage id).trans hr) hdb hr
  stored id r hr := by
    rw [sends_finish, sends_of_other hsends, List.append_nil]
    exact h.stored id r ((hmessage id).symm.trans hr)
  known id o c sender hne := by
    rw [sends_finish, sends_of_other hsends, List.append_nil] at hne
    obtain ⟨r, hr, hfrom⟩ := h.known id o c sender hne
    exact ⟨r, (hmessage id).trans hr, hfrom⟩
  unchanged e he hposts hnot := by
    obtain he | he := List.mem_append.mp he
    · exact h.unchanged e he hposts hnot
    · cases List.mem_singleton.mp he
      exact hwrites hposts

/-- The first send: it stores the message. Nobody had sent it before, since whatever was sent is
stored and the id was free. -/
theorem Exact.sent (h : Exact w) (hq : q.call = .post_message o c sender id body)
    {r : MessageRow} {row : ChannelRow} (hfrom : r.from_ o c sender)
    (hsent : Sent ws w.store id r row) :
    Exact ((engine anyCall).finish q L
      (.committed ws (.post_message (.ok (.posted (r.message id))))) w) where
  lasting _ hdb _ _ hr := by
    refine h.lasting_finish (fun id' r' hr' => ?_) hdb hr
    refine (hsent.message_other ?_).trans hr'
    rintro rfl
    cases hsent.new.symm.trans hr'
  stored id' r' hr' := by
    rw [sends_finish, sends_of_post hq]
    by_cases hid : id' = id
    · subst hid
      cases hsent.message_self.symm.trans hr'
      obtain ⟨rfl, rfl, rfl⟩ := hfrom
      refine ⟨0, ?_⟩
      -- What was sent under this id would be stored, and the id was free.
      have hnone : sends w id' r.organization_id r.channel_id r.sender_actor_id = [] := by
        by_contra hne
        obtain ⟨r'', hr'', -⟩ := h.known _ _ _ _ hne
        cases hsent.new.symm.trans hr''
      simp [hnone]
    · obtain ⟨n, hn⟩ := h.stored id' r' ((hsent.message_other hid).symm.trans hr')
      exact ⟨n, by rw [if_neg (fun heq => hid heq.1.symm), List.append_nil, hn]⟩
  known id' o' c' sender' hne := by
    rw [sends_finish, sends_of_post hq] at hne
    by_cases hid : id' = id
    · subst hid
      by_cases hkey : id' = id' ∧ o = o' ∧ c = c' ∧ sender = sender'
      · obtain ⟨-, rfl, rfl, rfl⟩ := hkey
        exact ⟨r, hsent.message_self, hfrom⟩
      · rw [if_neg hkey, List.append_nil] at hne
        obtain ⟨r'', hr'', -⟩ := h.known _ _ _ _ hne
        cases hsent.new.symm.trans hr''
    · rw [if_neg (fun heq => hid heq.1.symm), List.append_nil] at hne
      obtain ⟨r', hr', hfrom'⟩ := h.known _ _ _ _ hne
      exact ⟨r', (hsent.message_other hid).trans hr', hfrom'⟩
  unchanged e he hposts hnot := by
    obtain he | he := List.mem_append.mp he
    · exact h.unchanged e he hposts hnot
    · cases List.mem_singleton.mp he
      exact absurd rfl (hnot ws (r.message id))

/-- A later send: it finds the message, and is one more at the end of the list. -/
theorem Exact.found (h : Exact w) (hq : q.call = .post_message o c sender id body)
    {r : MessageRow} (hfrom : r.from_ o c sender) (hr : w.store.message id = some r) :
    Exact ((engine anyCall).finish q L
      (.committed [] (.post_message (.ok (.alreadyPosted (r.message id))))) w) where
  lasting _ hdb _ _ hr := by
    refine h.lasting_finish ?_ hdb hr
    exact fun _ _ hr' => hr'
  stored id' r' hr' := by
    obtain ⟨n, hn⟩ := h.stored id' r' hr'
    rw [sends_finish, sends_of_post hq, hn]
    by_cases hid : id' = id
    · subst hid
      cases hr.symm.trans hr'
      obtain ⟨rfl, rfl, rfl⟩ := hfrom
      exact ⟨n + 1, by simp [List.replicate_succ']⟩
    · exact ⟨n, by rw [if_neg (fun heq => hid heq.1.symm), List.append_nil]⟩
  known id' o' c' sender' hne := by
    rw [sends_finish, sends_of_post hq] at hne
    by_cases hkey : id = id' ∧ o = o' ∧ c = c' ∧ sender = sender'
    · obtain ⟨rfl, rfl, rfl, rfl⟩ := hkey
      exact ⟨r, hr, hfrom⟩
    · rw [if_neg hkey, List.append_nil] at hne
      exact h.known _ _ _ _ hne
  unchanged e he hposts hnot := by
    obtain he | he := List.mem_append.mp he
    · exact h.unchanged e he hposts hnot
    · cases List.mem_singleton.mp he
      rfl

/-- **Every ending keeps it.** A `post_message` that returns is one of the last two; every other
ending is the first kind. -/
theorem Exact.step {V : World → Prop} {out : Outcome} (h : Exact w)
    (hg : (rules anyCall false V).guar q L out w) : Exact ((engine anyCall).finish q L out w) := by
  cases out with
  | failed reply => exact h.other (fun _ => rfl) (by simp) fun _ => rfl
  | aborted => exact h.other (fun _ => rfl) (by simp) fun _ => rfl
  | committed ws reply =>
      have hspec : CommitSpec false q ws reply w.store := hg.2.1
      by_cases hposts : q.call.posts = true
      · obtain ⟨call, tx⟩ := q
        cases call with
        | post_message o c sender id body =>
            obtain ⟨r, hfrom, ⟨rfl, -, row, hsent⟩ | ⟨rfl, hr, rfl⟩⟩ := hspec
            · exact h.sent rfl hfrom hsent
            · exact h.found rfl hfrom hr
        | _ => cases hposts
      · refine h.other ?_ (fun h => absurd h hposts) fun h => absurd h hposts
        intro id
        obtain hsame | heffect := hspec.effect_or_same (.message id)
        · exact hsame
        · generalize (view ws w.store).rows.get (.message id) = x at heffect
          cases heffect with
          | message_sent _ _ _ _ _ _ _ hq _ => exact absurd (by rw [hq]; rfl) hposts
          | departed _ _ _ _ _ _ hk => cases hk

/-! ## Whole runs -/

/-- The worlds on record since the committed states `since`. -/
def After (since : List Database) (w : World) : Prop := Consistent w.store ∧ since <+: w.states

/-- The rules of all calls are sound over these worlds, which no ending leaves. -/
theorem sound_after (since : List Database) : (rules anyCall false (After since)).Sound :=
  sound_of false (fun _ h => h.1)
    fun q L o w h hc => ⟨hc, h.2.trans ((engine anyCall).states_finish q L o w)⟩

/-- A state on record that has the earlier states behind it is not one of them but the last, or a
later one. With this an `IdConflict` is decided by a state since the run's middle. -/
theorem After.mem_drop {v u : World} (hu : v.states <+: u.states) {w : World}
    (hw : u.states <+: w.states) : u.store ∈ w.states.drop v.history.length := by
  obtain ⟨rest, hrest⟩ := hw
  have hlen : v.history.length ≤ u.history.length := by
    simpa [Txn.World.states] using hu.length_le
  rw [← hrest, Txn.World.states, List.append_assoc, List.drop_append_of_le_length (by simpa)]
  simp

/-- **Posting is exactly-once.** In every run: a stored message stays as it is; of the calls
with one id, organization, channel and sender that returned, the first posted the message
that is stored and all others found it; a call that did not post changed nothing; and from
any point of a run on, a call is refused with `IdConflict` only for a stored message that
is not its own, if its sender has been an active member since. -/
theorem posting_exactly_once {s₀ s : System} (h₀ : (engine anyCall).Reachable World.empty s₀)
    (h : (engine anyCall).Reachable s₀.world s) :
    (∀ db ∈ s.world.states, ∀ id r, db.message id = some r →
      s.world.store.message id = some r)
    ∧ (∀ id o c sender, sends s.world id o c sender = [] ∨ ∃ r n,
        s.world.store.message id = some r ∧ r.from_ o c sender
        ∧ sends s.world id o c sender
          = .posted (r.message id) :: List.replicate n (.alreadyPosted (r.message id)))
    ∧ (∀ e ∈ s.world.history, e.call.call.posts = true →
        (∀ ws m, e.outcome ≠ .committed ws (.post_message (.ok (.posted m)))) →
        (engine anyCall).after e.outcome e.before = e.before)
    ∧ ∀ pre e post o c sender id body, s.world.history = pre ++ e :: post →
        s₀.world.history.length ≤ pre.length → e.call.call = .post_message o c sender id body →
        e.outcome = .failed (.post_message (.error .idConflict)) →
        (∀ db ∈ s.world.states.drop s₀.world.history.length, db.active o sender = true) →
        ∃ r, e.before.message id = some r ∧ ¬ r.from_ o c sender := by
  have hexact₀ : Exact s₀.world :=
    Txn.Rules.Later.preserves (fun _ _ _ _ hv hg _ _ => hv.step hg) (reachable_later h₀) Exact.empty
  have hv₀ : (rules anyCall false (After s₀.world.states)).valid s₀.world :=
    ⟨reachable_consistent h₀, List.prefix_rfl⟩
  have hl := ((sound_after s₀.world.states).reachable hv₀ (steps_clear h)).2
  have hexact : Exact s.world :=
    Txn.Rules.Later.preserves (fun _ _ _ _ hv hg _ _ => hv.step hg) hl hexact₀
  refine ⟨hexact.lasting, ?_, ?_, ?_⟩
  · intro id o c sender
    by_cases hne : sends s.world id o c sender = []
    · exact .inl hne
    · obtain ⟨r, hr, hfrom⟩ := hexact.known id o c sender hne
      obtain ⟨n, hn⟩ := hexact.stored id r hr
      obtain ⟨rfl, rfl, rfl⟩ := hfrom
      exact .inr ⟨r, n, hr, ⟨rfl, rfl, rfl⟩, hn⟩
  · intro e he hposts hnot
    rw [(engine anyCall).after_eq_view, hexact.unchanged e he hposts hnot]
    rfl
  · intro pre e post o c sender id body hs hpre hq hout hactive
    obtain ⟨v, hlv, -, hbefore, -, hg, hafter⟩ := hl.at_entry hs hpre
    rw [hout] at hg
    have hseen : FailSpec (After s₀.world.states) e.call _ v := hg
    rw [FailSpec, hq] at hseen
    obtain ⟨u, hu, huv, r, hr, hsame⟩ := hseen rfl
    -- The message that was in the way in the world `u` is still there at the end of the call.
    have hexact_v : Exact v :=
      Txn.Rules.Later.preserves (fun _ _ _ _ hv hg _ _ => hv.step hg) hlv hexact₀
    refine ⟨r, hbefore ▸ hexact_v.lasting u.store (huv.subset (by simp [Txn.World.states])) id r hr, ?_⟩
    intro hfrom
    have hstates : u.states <+: s.world.states :=
      huv.trans (((engine anyCall).states_finish _ _ _ v).trans hafter.states)
    have hmember := hactive u.store (After.mem_drop hu.2 hstates)
    simp [hsame hfrom] at hmember

/-- The first message of the conversation: one call posted it, the other found it. -/
theorem posting_exactly_once_conversation : ∃ s : System, ∃ r,
    s.world.store.message (sampleId 0) = some r ∧ sends s.world (sampleId 0) ⟨10⟩ ⟨40⟩ ⟨1⟩
      = [.posted (r.message (sampleId 0)), .alreadyPosted (r.message (sampleId 0))] := by
  obtain ⟨s, hs, hcheck⟩ := reachable_of_serve 100 conversation
    (fun s => (sends s.world (sampleId 0) ⟨10⟩ ⟨40⟩ ⟨1⟩).length = 2) (by decide +kernel)
  have hlen := of_decide_eq_true hcheck
  obtain hnone | ⟨r, n, hr, -, hsends⟩ :=
    (posting_exactly_once .refl hs).2.1 (sampleId 0) ⟨10⟩ ⟨40⟩ ⟨1⟩
  · rw [hnone] at hlen
    cases hlen
  · rw [hsends, List.length_cons, List.length_replicate] at hlen
    obtain rfl : n = 1 := by omega
    exact ⟨s, r, hr, hsends⟩

end Fukulow
