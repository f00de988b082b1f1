/-
An invite admits as many people as it was used.

The runs here are of `create_invite`, `revoke_invite` and `accept_invite`, from any state
without invites. An acceptance writes the invite's use, the person and the membership in
one commit, on top of the invite as the commit finds it; so the counter, the admissions on
record and the records in the audit log move together, and the commit found the invite
open.
-/
import Fukulow.Soundness
import Fukulow.Effects

set_option autoImplicit false

namespace Fukulow

/-- The calls about invites. -/
def Call.about_invites : Call → Bool
  | .create_invite .. | .revoke_invite .. | .accept_invite .. => true
  | _ => false

/-- The rules of the calls about invites, over any worlds. -/
abbrev inviteRules : Txn.Rules (engine Call.about_invites) :=
  rules Call.about_invites false fun _ => True

/-- **These rules are sound.** No departure is among the calls, so nothing is asked of the worlds,
and the rules for all calls restrict to these. -/
theorem invite_sound : inviteRules.Sound where
  keeps _ _ _ _ _ _ := trivial
  aborts _ _ _ _ := trivial
  bodies q w _ hadm := by
    have hq : q.call.about_invites = true := ((Bool.and_eq_true _ _).mp hadm).1
    refine bodies q hq ?_
    rintro a - hleave -
    rw [hleave] at hq
    cases hq

/-! ## Admissions -/

/-- Do these writes use, or otherwise write, the invite? -/
def writesInvite (i : InviteId) (ws : List Write) : Bool :=
  ws.any fun
    | .put (.invite j) _ => j = i
    | _ => false

/-- Whom an ending admits through the invite: the new person of a committed acceptance. -/
def Entry.admits (i : InviteId) (e : Entry) : Option ActorId :=
  match e.call.call, e.outcome with
  | .accept_invite .., .committed ws (.accept_invite (.ok (a, _))) =>
      if writesInvite i ws then some a else none
  | _, _ => none

/-- The people admitted through the invite, in the order of their commits. -/
def admissions (w : World) (i : InviteId) : List ActorId := w.history.filterMap (Entry.admits i)

/-- Does the event record a member who was added through the invite? -/
def Event.admitted_through (i : InviteId) (e : Event) : Bool :=
  e.action = "organization.member.added" && e.field "invite_id" = some (.uuid i.uuid)

@[simp] theorem Event.admitted_through_invited (i j : InviteId) (a : ActorId) :
    (Event.member_invited a j).admitted_through i = decide (j = i) := by
  by_cases h : j = i
  · subst h
    simp [admitted_through, action, field, metadata, List.lookup_cons]
  · have huuid : j.uuid ≠ i.uuid := fun heq => h (Identifier.uuid_injective _ heq)
    simp [admitted_through, action, field, metadata, List.lookup_cons, h, huuid]

@[simp] theorem Event.admitted_through_created (i j : InviteId) (o : OrganizationId) (n : ℤ) :
    (Event.invite_created o j n).admitted_through i = false := rfl

@[simp] theorem Event.admitted_through_revoked (i j : InviteId) (o : OrganizationId) :
    (Event.invite_revoked o j).admitted_through i = false := rfl

/-- The records of members who were added through the invite. -/
def namings (db : Database) (i : InviteId) : List AuditRow :=
  db.audit_events.filter fun row => row.event.admitted_through i

variable {w : World} {q : Request} {L : Held} {ws : List Write} {reply : Reply} {i : InviteId}
variable {db db₀ : Database} {allowed : Call → Bool} {out : Outcome}

/-- The admissions grow by what the newest ending admits, which is one person or nobody. -/
theorem admissions_finish : admissions ((engine allowed).finish q L out w) i
    = admissions w i ++ (Entry.admits i ⟨q, L, out, w.store⟩).toList := by
  simp only [admissions, Txn.Engine.finish, List.filterMap_append, List.filterMap_cons,
    List.filterMap_nil]
  cases Entry.admits i ⟨q, L, out, w.store⟩ <;> rfl

/-- The records of a commit come behind those that are there: the log is only appended to, so the
namings of an invite grow by the namings among the new records. -/
theorem namings_view : namings (view ws db) i
    = namings db i ++ (logs ws).filter fun row => row.event.admitted_through i := by
  rw [namings, view_audit, List.filter_append, namings]

/-! ## What every ending keeps -/

/-- A person as an acceptance leaves them: a human, an ordinary active member. -/
structure Admitted (db : Database) (o : OrganizationId) (a : ActorId) : Prop where
  actor : ∃ name, db.actor a = some ⟨.human, some name, none⟩
  member : db.member o a = some ⟨.member, .active, none⟩

/-- The uses of invites in a world that began, without invites, in the state `db₀`. -/
structure Used (db₀ : Database) (w : World) : Prop where
  counted : ∀ i r, w.store.invite i = some r →
    r.used_count = (admissions w i).length ∧ r.used_count ≤ r.max_uses
  unknown : ∀ i, w.store.invite i = none → admissions w i = []
  named : ∀ i, (namings w.store i).length = (namings db₀ i).length + (admissions w i).length
  distinct : ∀ i, (admissions w i).Nodup
  admitted : ∀ i r a, w.store.invite i = some r → a ∈ admissions w i →
    Admitted w.store r.organization_id a
  closed : ∀ d ∈ w.states, ∀ i r t, d.invite i = some r → r.revoked_at = some t →
    ∃ r', w.store.invite i = some r' ∧ r'.revoked_at = some t

/-- Without invites the account is empty, and every part of it holds. -/
theorem Used.begin (hnone : ∀ i, db₀.invite i = none) : Used db₀ ⟨db₀, []⟩ where
  counted i r hr := by cases (hnone i).symm.trans hr
  unknown _ _ := rfl
  named _ := rfl
  distinct _ := List.nodup_nil
  admitted i r a hr := by cases (hnone i).symm.trans hr
  closed d hd i r t hr := by
    cases List.mem_singleton.mp hd
    cases (hnone i).symm.trans hr

/-- A revocation stays as it is. Neither the revocation nor the use of an invite touches one that
is revoked, and nothing else writes invites. -/
theorem CommitSpec.revoked_stays {guarded : Bool} (h : CommitSpec guarded q ws reply db)
    {r : InviteRow} {t : Instant} (hr : db.invite i = some r) (ht : r.revoked_at = some t) :
    ∃ r', (view ws db).invite i = some r' ∧ r'.revoked_at = some t := by
  obtain hsame | heffect := h.effect_or_same (.invite i)
  · exact ⟨r, hsame.trans hr, ht⟩
  · generalize (view ws db).rows.get (.invite i) = x at heffect
    cases heffect with
    | invite_created _ _ _ _ hnone => cases hnone.symm.trans hr
    -- Both other changes of an invite find it without a revocation.
    | invite_revoked _ r' _ _ hr' hopen =>
        cases hr'.symm.trans hr
        cases hopen.symm.trans ht
    | invite_used _ r' _ hr' _ hopen =>
        cases hr'.symm.trans hr
        cases hopen.symm.trans ht
    | departed _ _ _ _ _ _ hk => cases hk

/-- What every earlier state revoked is still revoked after an ending that keeps the revocations of
the state before it. -/
theorem Used.closed_finish (h : Used db₀ w)
    (hstays : ∀ i r t, w.store.invite i = some r → r.revoked_at = some t →
      ∃ r', ((engine allowed).finish q L out w).store.invite i = some r' ∧ r'.revoked_at = some t)
    {d : Database} (hd : d ∈ ((engine allowed).finish q L out w).states) {r : InviteRow}
    {t : Instant} (hr : d.invite i = some r) (ht : r.revoked_at = some t) :
    ∃ r', ((engine allowed).finish q L out w).store.invite i = some r'
      ∧ r'.revoked_at = some t := by
  obtain hd | rfl := Txn.Engine.mem_states_finish _ hd
  · obtain ⟨r', hr', ht'⟩ := h.closed d hd i r t hr ht
    exact hstays i r' t hr' ht'
  · exact ⟨r, hr, ht⟩

/-- An ending that admits nobody keeps the account, if it leaves the counters, the people and the
namings as they are. A new invite comes in unused, and nobody can have been admitted through it
before. -/
theorem Used.nobody (h : Used db₀ w)
    (hadmits : ∀ i, Entry.admits i ⟨q, L, out, w.store⟩ = none)
    (hnamed : ∀ i, namings ((engine allowed).finish q L out w).store i = namings w.store i)
    (hactor : ∀ a, ((engine allowed).finish q L out w).store.actor a = w.store.actor a)
    (hmember : ∀ o a, ((engine allowed).finish q L out w).store.member o a = w.store.member o a)
    (hinvite : ∀ i r', ((engine allowed).finish q L out w).store.invite i = some r' →
      (∃ r, w.store.invite i = some r ∧ r'.organization_id = r.organization_id
        ∧ r'.used_count = r.used_count ∧ r'.max_uses = r.max_uses)
      ∨ (w.store.invite i = none ∧ r'.used_count = 0 ∧ 0 < r'.max_uses))
    (hstays : ∀ i r t, w.store.invite i = some r → r.revoked_at = some t →
      ∃ r', ((engine allowed).finish q L out w).store.invite i = some r' ∧ r'.revoked_at = some t)
    (hkept : ∀ i, ((engine allowed).finish q L out w).store.invite i = none →
      w.store.invite i = none) :
    Used db₀ ((engine allowed).finish q L out w) := by
  have hsame : ∀ i, admissions ((engine allowed).finish q L out w) i = admissions w i := by
    intro i
    rw [admissions_finish, hadmits, Option.toList_none, List.append_nil]
  constructor
  · intro i r' hr'
    rw [hsame]
    obtain ⟨r, hr, -, hused, hmax⟩ | ⟨hnone, hused, hmax⟩ := hinvite i r' hr'
    · rw [hused, hmax]
      exact h.counted i r hr
    · rw [h.unknown i hnone, hused]
      exact ⟨rfl, hmax.le⟩
  · intro i hi
    rw [hsame]
    exact h.unknown i (hkept i hi)
  · intro i
    rw [hsame, hnamed]
    exact h.named i
  · intro i
    rw [hsame]
    exact h.distinct i
  · intro i r' a hr' ha
    rw [hsame] at ha
    obtain ⟨r, hr, horg, -, -⟩ | ⟨hnone, -, -⟩ := hinvite i r' hr'
    · obtain ⟨⟨name, hname⟩, hm⟩ := h.admitted i r a hr ha
      exact ⟨⟨name, (hactor a).trans hname⟩, (hmember _ a).trans (horg ▸ hm)⟩
    · rw [h.unknown i hnone] at ha
      exact absurd ha List.not_mem_nil
  · exact fun d hd i r t hr ht => h.closed_finish hstays hd hr ht

/-- An ending that writes nothing keeps the account; this covers errors, refusals and every call
that only reads. -/
theorem Used.nothing (h : Used db₀ w) (hadmits : ∀ i, Entry.admits i ⟨q, L, out, w.store⟩ = none)
    (hsame : ((engine allowed).finish q L out w).store = w.store) :
    Used db₀ ((engine allowed).finish q L out w) := by
  refine h.nobody hadmits ?_ ?_ ?_ ?_ ?_ ?_
  · exact fun i => by rw [hsame]
  · exact fun a => by rw [hsame]
  · exact fun o a => by rw [hsame]
  · exact fun i r hr => .inl ⟨r, hsame ▸ hr, rfl, rfl, rfl⟩
  · exact fun i r t hr ht => ⟨r, hsame ▸ hr, ht⟩
  · exact fun i hi => hsame ▸ hi

/-- Without writes nobody is admitted: an admission is read off the invite that is written. -/
theorem admits_of_no_writes (hout : out.writes = []) (i : InviteId) :
    Entry.admits i ⟨q, L, out, db⟩ = none := by
  unfold Entry.admits
  split
  case h_1 ws a o _ heq =>
    have hws : ws = [] := by
      cases heq
      exact hout
    simp [hws, writesInvite]
  case h_2 => rfl

/-! ## The three calls -/

/-- Only an acceptance admits anybody. -/
theorem admits_eq_none (h : ∀ hash email pw name a, q.call ≠ .accept_invite hash email pw name a) :
    Entry.admits i ⟨q, L, out, db⟩ = none := by
  obtain ⟨c, tx⟩ := q
  cases c with
  | accept_invite hash email pw name a => exact absurd rfl (h hash email pw name a)
  | _ => rfl

/-- A change of one invite that is no use of it: its creation, which begins the counter at zero, or
its revocation, which leaves the counter alone. The record of neither names a person as admitted.
-/
theorem Used.changed (h : Used db₀ w) {p : ActorId} {o : OrganizationId} {e : Event} {j : InviteId}
    {x : InviteRow} (hch : Change ws w.store p o e [.put (.invite j) (some x)])
    (hcall : ∀ hash email pw name a, q.call ≠ .accept_invite hash email pw name a)
    (he : ∀ i, e.admitted_through i = false)
    (hx : (∃ r, w.store.invite j = some r ∧ x.organization_id = r.organization_id
        ∧ x.used_count = r.used_count ∧ x.max_uses = r.max_uses)
      ∨ (w.store.invite j = none ∧ x.used_count = 0 ∧ 0 < x.max_uses))
    (hstays : ∀ i r t, w.store.invite i = some r → r.revoked_at = some t →
      ∃ r', (view ws w.store).invite i = some r' ∧ r'.revoked_at = some t) :
    Used db₀ ((engine allowed).finish q L (.committed ws reply) w) := by
  refine h.nobody (fun i => admits_eq_none hcall) ?_ (fun a => hch.other (by simp))
    (fun o a => hch.other (by simp)) ?_ hstays ?_
  · intro i
    refine namings_view.trans ?_
    simp [hch.logs_eq, he]
  · intro i r hr
    by_cases hi : i = j
    · subst hi
      cases hr.symm.trans hch.row
      exact hx
    · exact .inl ⟨r, (hch.other (by simpa using hi)).symm.trans hr, rfl, rfl, rfl⟩
  · intro i hnone
    by_cases hi : i = j
    · subst hi
      cases hnone.symm.trans hch.row
    · exact (hch.other (by simpa using hi)).symm.trans hnone

section Accepted

variable {hash : TokenHash} {email pw name : Text} {a : ActorId}

/-- What an acceptance writes, and what it leaves alone. -/
structure Accepts (ws : List Write) (db : Database) (j : InviteId) (r : InviteRow) (xid : ℕ)
    (a : ActorId) (name : Text) : Prop where
  invite : (view ws db).invite j = some { r with used_count := r.used_count + 1, xmin := xid }
  actor : (view ws db).actor a = some ⟨.human, some name, none⟩
  member : (view ws db).member r.organization_id a = some ⟨.member, .active, none⟩
  invites : ∀ i, i ≠ j → (view ws db).invite i = db.invite i
  actors : ∀ b, b ≠ a → (view ws db).actor b = db.actor b
  members : ∀ o b, b ≠ a → (view ws db).member o b = db.member o b

/-- What an acceptance comes to: the invite that has the token was open, the person is new, the
answer names that person and the organization of the invite, and the writes use this invite and no
other. -/
theorem InviteAccepted.accepts {tx : Transaction}
    (h : InviteAccepted ws db tx hash email pw name a reply) : ∃ j r, db.invite j = some r
      ∧ r.open hash tx.now ∧ db.actor a = none
      ∧ reply = .accept_invite (.ok (a, r.organization_id))
      ∧ (∀ i, writesInvite i ws = decide (j = i))
      ∧ logs ws = [⟨r.organization_id, a, .member_invited a j⟩]
      ∧ Accepts ws db j r tx.xid a name := by
  obtain ⟨j, r, hr, hopen, hactor, -, -, rfl, hws⟩ := h
  refine ⟨j, r, hr, hopen, hactor, rfl, ?_, ?_, ?_⟩
  · intro i
    simp [hws, writesInvite]
  · rw [hws]
    rfl
  · constructor
    · exact view_get_of_put (k := .invite j) (by simp [hws]) (by simp [hws])
    · exact view_get_of_put (k := .actor a) (by simp [hws]) (by simp [hws])
    · exact view_get_of_put (k := .member r.organization_id a) (by simp [hws]) (by simp [hws])
    · exact fun i hi => view_get_of_untouched (k := .invite i) (by simp [hws, hi])
    · exact fun b hb => view_get_of_untouched (k := .actor b) (by simp [hws, hb])
    · exact fun o b hb => view_get_of_untouched (k := .member o b) (by simp [hws, hb])

/-- An acceptance: one more use, one more person, one more record, all on the same invite. The
commit found the invite open, so the counter stays within what is allowed; it found no such person,
so the admissions stay distinct. -/
theorem Used.accepted (h : Used db₀ w) (hq : q.call = .accept_invite hash email pw name a)
    (hspec : InviteAccepted ws w.store q.tx hash email pw name a reply)
    (hstays : ∀ i r t, w.store.invite i = some r → r.revoked_at = some t →
      ∃ r', (view ws w.store).invite i = some r' ∧ r'.revoked_at = some t) :
    Used db₀ ((engine allowed).finish q L (.committed ws reply) w) := by
  obtain ⟨j, r, hr, hopen, hfresh, rfl, hwrites, hlogs, hacc⟩ := hspec.accepts
  have hthis : admissions ((engine allowed).finish q L
      (.committed ws (.accept_invite (.ok (a, r.organization_id)))) w) j = admissions w j ++ [a] := by
    rw [admissions_finish]
    simp [Entry.admits, hq, hwrites]
  have hothers : ∀ i, i ≠ j → admissions ((engine allowed).finish q L
      (.committed ws (.accept_invite (.ok (a, r.organization_id)))) w) i = admissions w i := by
    intro i hi
    rw [admissions_finish]
    simp [Entry.admits, hq, hwrites, hi.symm]
  -- Whoever was admitted before is someone else.
  have hold : ∀ {i r' b}, w.store.invite i = some r' → b ∈ admissions w i →
      b ≠ a ∧ Admitted (view ws w.store) r'.organization_id b := by
    intro i r' b hr' hb
    obtain ⟨⟨n, hn⟩, hm⟩ := h.admitted i r' b hr' hb
    have hne : b ≠ a := by
      rintro rfl
      cases hfresh.symm.trans hn
    exact ⟨hne, ⟨n, (hacc.actors b hne).trans hn⟩, (hacc.members _ b hne).trans hm⟩
  constructor
  · intro i r' hr'
    by_cases hi : i = j
    · subst hi
      cases hr'.symm.trans hacc.invite
      have hused := (h.counted i r hr).1
      rw [hthis, List.length_append, List.length_singleton]
      -- The counter goes up by one, and was below the limit when the commit found it.
      refine ⟨?_, hopen.uses⟩
      dsimp only
      omega
    · rw [hothers i hi]
      exact h.counted i r' ((hacc.invites i hi).symm.trans hr')
  · intro i hnone
    by_cases hi : i = j
    · subst hi
      cases hnone.symm.trans hacc.invite
    · rw [hothers i hi]
      exact h.unknown i ((hacc.invites i hi).symm.trans hnone)
  · intro i
    have hview : namings ((engine allowed).finish q L
        (.committed ws (.accept_invite (.ok (a, r.organization_id)))) w).store i
        = namings w.store i ++ (logs ws).filter fun row => row.event.admitted_through i :=
      namings_view
    rw [hview, List.length_append, h.named, hlogs]
    by_cases hi : i = j
    · subst hi
      rw [hthis]
      simp [Nat.add_assoc]
    · rw [hothers i hi]
      simp [Ne.symm hi]
  · intro i
    by_cases hi : i = j
    · subst hi
      rw [hthis, List.nodup_append]
      refine ⟨h.distinct i, List.nodup_singleton a, ?_⟩
      intro b hb c hc
      rw [List.mem_singleton.mp hc]
      exact (hold hr hb).1
    · rw [hothers i hi]
      exact h.distinct i
  · intro i r' b hr' hb
    by_cases hi : i = j
    · subst hi
      cases hr'.symm.trans hacc.invite
      rw [hthis, List.mem_append, List.mem_singleton] at hb
      obtain hb | rfl := hb
      · exact (hold hr hb).2
      · exact ⟨⟨name, hacc.actor⟩, hacc.member⟩
    · rw [hothers i hi] at hb
      exact (hold ((hacc.invites i hi).symm.trans hr') hb).2
  · intro d hd i r' t hr' ht
    refine h.closed_finish ?_ hd hr' ht
    exact hstays

end Accepted

/-- **Every ending keeps the account of the uses.** The guarantee says what a commit did on the
state it met, so the case of each call is one of the lemmas above, and whatever is not a commit
writes nothing. -/
theorem Used.step (h : Used db₀ w) (hg : inviteRules.guar q L out w) :
    Used db₀ ((engine Call.about_invites).finish q L out w) := by
  cases out with
  | failed reply => exact h.nothing (admits_of_no_writes rfl) rfl
  | aborted => exact h.nothing (admits_of_no_writes rfl) rfl
  | committed ws reply =>
      obtain ⟨-, hspec, hq⟩ := hg
      have hstays : ∀ i r t, w.store.invite i = some r → r.revoked_at = some t →
          ∃ r', (view ws w.store).invite i = some r' ∧ r'.revoked_at = some t :=
        fun i r t hr ht => hspec.revoked_stays hr ht
      obtain ⟨c, tx⟩ := q
      cases c with
      | create_invite p o token expires n j =>
          obtain ⟨t, hash, -, hnew, hmax, -, hch⟩ := hspec
          exact h.changed hch (by simp) (fun _ => rfl) (.inr ⟨hnew, rfl, hmax⟩) hstays
      | revoke_invite p o inv =>
          obtain rfl | ⟨j, r, -, hr, -, -, -, hch⟩ := hspec
          · exact h.nothing (admits_of_no_writes rfl) rfl
          · exact h.changed hch (by simp) (fun _ => rfl) (.inl ⟨r, hr, rfl, rfl, rfl⟩) hstays
      | accept_invite hash email pw name a => exact h.accepted rfl hspec hstays
      | _ => cases hq

/-! ## Whole runs -/

section Runs

variable {s : System}

/-- The account holds in every world that comes later under the rules, one ending at a time. -/
theorem used_later (hnone : ∀ i, db₀.invite i = none) (hl : inviteRules.Later [] ⟨db₀, []⟩ w) :
    Used db₀ w :=
  Txn.Rules.Later.preserves (fun _ _ _ _ hv hg _ _ => hv.step hg) hl (Used.begin hnone)

/-- Every world of a run comes later than its first one, under the rules. -/
theorem invite_later (h : (engine Call.about_invites).Reachable ⟨db₀, []⟩ s) :
    inviteRules.Later [] ⟨db₀, []⟩ s.world := by
  refine (invite_sound.reachable (w := ⟨db₀, []⟩) trivial ?_).2
  refine Txn.Engine.Reachable.within _ (Txn.Rules.clear_of_presumes fun q => ?_) h
  obtain ⟨c, tx⟩ := q
  cases c <;> rfl

/-- What a committed acceptance of the token `hash` found: an invite with that token, open in the
state it committed to, and revoked in none before. -/
structure Entry.Accepted (pre : List Entry) (e : Entry) (hash : TokenHash) (a : ActorId)
    (i : InviteId) (r : InviteRow) : Prop where
  row : e.before.invite i = some r
  isOpen : r.open hash e.call.tx.now
  unrevoked : ∀ d ∈ pre.map Txn.Entry.before ++ [e.before], ∀ r', d.invite i = some r' →
    r'.revoked_at = none
  fresh : e.before.actor a = none
  admits : ∀ j, Entry.admits j e = if i = j then some a else none

/-- Whoever accepts with a token is admitted through the invite that has it. What the commit found
open cannot have been revoked in an earlier state, since revocations stay. -/
theorem accepted_entry (hnone : ∀ i, db₀.invite i = none)
    (hl : inviteRules.Later [] ⟨db₀, []⟩ s.world) {pre post : List Entry} {e : Entry}
    (hhist : s.world.history = pre ++ e :: post) {hash : TokenHash} {email pw name : Text}
    {a : ActorId} (hcall : e.call.call = .accept_invite hash email pw name a)
    (hout : e.outcome = .committed ws reply) :
    ∃ i r, reply = .accept_invite (.ok (a, r.organization_id)) ∧ e.Accepted pre hash a i r := by
  obtain ⟨v, hlv, rfl, hbefore, -, hg, -⟩ := hl.at_entry hhist (Nat.zero_le _)
  obtain ⟨⟨c, tx⟩, L, out, before⟩ := e
  obtain rfl : v.store = before := hbefore
  cases hcall
  cases hout
  have hspec : InviteAccepted ws v.store tx hash email pw name a reply := hg.2.1
  obtain ⟨i, r, hr, hopen, hfresh, rfl, hwritten, -⟩ := hspec.accepts
  refine ⟨i, r, rfl, hr, hopen, ?_, hfresh, fun j => ?_⟩
  · intro d hd r' hr'
    by_contra hne
    obtain ⟨t, ht⟩ := Option.ne_none_iff_exists'.mp hne
    obtain ⟨r'', hr'', ht'⟩ := (used_later hnone hlv).closed d hd i r' t hr' ht
    cases hr''.symm.trans hr
    cases ht'.symm.trans hopen.revoked
  · change (if writesInvite j ws = true then some a else none) = _
    rw [hwritten j]
    by_cases hj : i = j <;> simp [hj]

/-- Only a committed acceptance admits anybody, and the person it admits is the one in its answer.
-/
theorem Entry.admits_some {e : Entry} {a : ActorId} (h : Entry.admits i e = some a) :
    ∃ hash email pw name b ws o, e.call.call = .accept_invite hash email pw name b
      ∧ e.outcome = .committed ws (.accept_invite (.ok (a, o))) := by
  unfold Entry.admits at h
  split at h
  case h_1 ws b o hcall hout =>
    split at h
    case isTrue =>
      cases h
      exact ⟨_, _, _, _, _, ws, o, hcall, hout⟩
    case isFalse => cases h
  case h_2 => cases h

/-- **An invite admits exactly as many people as it was used**, never more than allowed and
never after it closed, in every run of the calls about invites from any state that holds
no invite. Each of these people was new, and is a human and an ordinary active member of
the invite's organization. A call that accepts is one of them: the invite whose token it
presents was open when it committed, had been revoked in no state before, and admits the
person it answers with. -/
theorem invite_use {db₀ : Database} (hnone : ∀ i, db₀.invite i = none) {s : System}
    (h : (engine Call.about_invites).Reachable ⟨db₀, []⟩ s) :
    (∀ i r, s.world.store.invite i = some r →
      0 ≤ r.used_count ∧ r.used_count ≤ r.max_uses
      ∧ r.used_count = (admissions s.world i).length ∧ (admissions s.world i).Nodup
      ∧ (namings s.world.store i).length = (namings db₀ i).length + r.used_count
      ∧ ∀ a ∈ admissions s.world i, Admitted s.world.store r.organization_id a)
    ∧ (∀ d ∈ s.world.states, ∀ i r t, d.invite i = some r → r.revoked_at = some t →
        ∃ r', s.world.store.invite i = some r' ∧ r'.revoked_at = some t)
    ∧ (∀ pre e post i a, s.world.history = pre ++ e :: post → Entry.admits i e = some a →
        (∀ d ∈ pre.map Txn.Entry.before ++ [e.before], ∀ r, d.invite i = some r →
          r.revoked_at = none)
        ∧ e.before.actor a = none
        ∧ ∃ r, e.before.invite i = some r ∧ r.used_count < r.max_uses
          ∧ e.call.tx.now < r.expires_at)
    ∧ ∀ pre e post hash email pw name a ws reply, s.world.history = pre ++ e :: post →
        e.call.call = .accept_invite hash email pw name a → e.outcome = .committed ws reply →
        ∃ i r, reply = .accept_invite (.ok (a, r.organization_id)) ∧ e.before.invite i = some r
          ∧ r.open hash e.call.tx.now
          ∧ (∀ d ∈ pre.map Txn.Entry.before ++ [e.before], ∀ r', d.invite i = some r' →
            r'.revoked_at = none)
          ∧ Entry.admits i e = some a := by
  have hl := invite_later h
  have hs := used_later hnone hl
  refine ⟨?_, hs.closed, ?_, ?_⟩
  · intro i r hr
    obtain ⟨hcount, hmax⟩ := hs.counted i r hr
    refine ⟨by omega, hmax, hcount, hs.distinct i, ?_, fun a ha => hs.admitted i r a hr ha⟩
    rw [hs.named i, hcount]
    push_cast
    rfl
  · intro pre e post i a hhist hadm
    obtain ⟨hash, email, pw, name, b, ws, o, hcall, hout⟩ := Entry.admits_some hadm
    obtain ⟨j, r, -, haccepted⟩ := accepted_entry hnone hl hhist hcall hout
    -- The invite that the writes use is the one that has the token.
    rw [haccepted.admits i] at hadm
    obtain ⟨rfl, hab⟩ := Option.ite_none_right_eq_some.mp hadm
    cases hab
    exact ⟨haccepted.unrevoked, haccepted.fresh, r, haccepted.row, haccepted.isOpen.uses,
      haccepted.isOpen.expires⟩
  · intro pre e post hash email pw name a ws reply hhist hcall hout
    obtain ⟨i, r, hreply, haccepted⟩ := accepted_entry hnone hl hhist hcall hout
    exact ⟨i, r, hreply, haccepted.row, haccepted.isOpen, haccepted.unrevoked,
      (haccepted.admits i).trans (if_pos rfl)⟩

end Runs

/-- An organization with its owner, and nothing else. -/
def office : List Write :=
  [.put (.actor ⟨1⟩) (some ⟨.human, some ['A'], none⟩), .put (.organization ⟨10⟩) (some ⟨['o'], ['o']⟩),
    .put (.member ⟨10⟩ ⟨1⟩) (some ⟨.owner, .active, none⟩)]

/-- Two people try an invite for one: it is used once, and admits one of them. -/
theorem invite_use_single : ∃ (s : System) (r : InviteRow),
    s.world.store.invite ⟨30⟩ = some r ∧ r.max_uses = 1 ∧ r.used_count = 1
      ∧ (admissions s.world ⟨30⟩).length = 1 ∧ Admitted s.world.store ⟨10⟩ ⟨2⟩ := by
  have hnone : ∀ i, (view office Database.empty).invite i = none := by
    intro i
    exact (view_get_of_untouched (k := .invite i) (by simp [office])).trans rfl
  have hrun : (((engine Call.about_invites).serve 100
      [⟨.create_invite ⟨1⟩ ⟨10⟩ (some (['t'], first_key)) 100 1 ⟨30⟩, ⟨0, 1⟩⟩,
        ⟨.accept_invite first_key ['b'] [] ['B'] ⟨2⟩, ⟨0, 2⟩⟩,
        ⟨.accept_invite first_key ['c'] [] ['C'] ⟨3⟩, ⟨0, 3⟩⟩]
      (Txn.Engine.idle ⟨view office Database.empty, []⟩)).any fun s =>
        (s.world.store.invite ⟨30⟩).any fun r => r.max_uses = 1 && r.used_count = 1
          && r.organization_id = ⟨10⟩ && admissions s.world ⟨30⟩ = [⟨2⟩]) = true := by
    decide +kernel
  obtain ⟨s, hs, hcheck⟩ := (Option.any_eq_true _ _).mp hrun
  obtain ⟨r, hr, hrow⟩ := (Option.any_eq_true _ _).mp hcheck
  simp only [Bool.and_eq_true, decide_eq_true_eq] at hrow
  obtain ⟨⟨⟨hmax, hone⟩, horg⟩, hadm⟩ := hrow
  have hreach := (Txn.Engine.ReachableIn.of_serve (fun _ h => h) hs).reachable
  obtain ⟨-, -, hcount, -, -, hpeople⟩ := (invite_use hnone hreach).1 ⟨30⟩ r hr
  refine ⟨s, r, hr, hmax, hone, by omega, ?_⟩
  exact horg ▸ hpeople ⟨2⟩ (by simp [hadm])

end Fukulow
