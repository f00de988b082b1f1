/-
The life of a session.

Signing in issues a token to an actor, revoking revokes it, and a departure drops its holder.
`credential_log` reads this off the calls and replies on record. What each such commit does to
the table of sessions is in `sessionRules`, which refine the rules of all calls; with fresh
tokens the table is then what the library of credentials replays from the log
(`SessionsOnRecord`), at every interleaving. Whom a token resolves to follows from the log.
-/
import Fukulow.Credentials.Log
import Fukulow.Departures
import Fukulow.Serial.Runs
import Fukulow.Serial.Sessions
import Fukulow.Txn.Strengthening

set_option autoImplicit false

namespace Fukulow

open Credentials (Fresh Live replay revocation)
open Txn (LockMode)

variable {q : Request} {ws : List Write} {reply : Reply} {db : Database}
variable {a : ActorId} {hash : TokenHash}

/-! ## The log -/

/-- What happens to the sessions of the service. -/
abbrev SessionEvent : Type := Credentials.Event ActorId TokenHash Instant

/-- What an ended call did to them, by what it was asked and what it replied. -/
def session_event (e : Entry) : Option SessionEvent :=
  match e.call.call, e.outcome with
  | .sign_in _ _ (some (_, hash)) expires _, .committed _ (.sign_in (.ok (a, _))) =>
      some (.issued a hash expires)
  | .revoke_session a hash, .committed _ _ => some (.revoked a hash e.call.tx.now)
  | .leave_service a, .committed _ _ => some (.dropped a)
  | _, _ => none

/-- Only commits do anything to them: what was rolled back is in no log. -/
theorem session_event_committed {e : Entry} {x : SessionEvent} (h : session_event e = some x) :
    ∃ ws reply, e.outcome = .committed ws reply := by
  unfold session_event at h
  split at h
  case h_4 => cases h
  all_goals rename_i hout; exact ⟨_, _, hout⟩

/-- All that happened to them. -/
def session_log (w : World) : List SessionEvent := w.history.filterMap session_event

/-! ## What calls do to sessions -/

/-- What signing in and revoking commit. -/
def SessionSpec (q : Request) (ws : List Write) (reply : Reply) (db : Database) : Prop :=
  match q.call with
  | .sign_in _ _ token expires i => ∃ a t hash, token = some (t, hash)
      ∧ reply = .sign_in (.ok (a, t)) ∧ SessionOpened ws db a hash expires i
  | .revoke_session a hash => RevokedBy ws db a hash q.tx.now
  | _ => True

/-- The rules of all calls, with what they do to sessions. -/
def sessionRules : Txn.Rules (engine anyCall) where
  valid w := Consistent w.store
  guar q L out w := (allRules false).guar q L out w
    ∧ ∀ ws reply, out = .committed ws reply → SessionSpec q ws reply w.store
  presumes _ := []

/-- These rules promise what those of all calls promise, and more. -/
theorem sessionRules_refines : sessionRules.Refines (allRules false) where
  valid _ h := h
  guar _ _ _ _ h := h.1
  presumes q := by
    rw [presumes_nothing]
    exact List.nil_subset _

/-- **The rules with the sessions are sound.** Two calls promise something beyond the guarantees of
all calls, and each has its own walk. -/
theorem sessionRules_sound : sessionRules.Sound where
  keeps q L out w hv hg := (sound false).keeps q L out w hv hg.1
  aborts _ _ _ _ := ⟨trivial, fun _ _ h => by cases h⟩
  bodies q w hv hmay := by
    have hbase := sessionRules_refines.wp ((sound false).bodies q w hv hmay)
    have hsessions : sessionRules.wp (fun L ws reply w =>
        sessionRules.Hence L (fun v => SessionSpec q ws reply v.store) w) (fun _ _ _ => True)
        q.body ((engine anyCall).claims q) [] w := by
      -- Most calls promise nothing.
      have hother : (∀ ws reply db, SessionSpec q ws reply db) → sessionRules.wp
          (fun L ws reply w => sessionRules.Hence L (fun v => SessionSpec q ws reply v.store) w)
          (fun _ _ _ => True) q.body ((engine anyCall).claims q) [] w := fun htrue =>
        Txn.Rules.wp_mono hbase (fun _ _ _ _ _ v _ _ => htrue _ _ v.store) fun _ _ _ _ => trivial
      clear hbase
      obtain ⟨c, tx⟩ := q
      cases c with
      | sign_in email verify token expires i =>
          refine Txn.Rules.wp_answer.mpr (Txn.Rules.wp_mono
            (sessionRules_refines.wp (wp_sign_in (c := .sign_in email verify token expires i)))
            ?_ fun _ _ _ _ => trivial)
          intro L ws x w hends v hl hv
          obtain ⟨-, hash, htoken, hopened⟩ := hends v (sessionRules_refines.later hl) hv
          exact ⟨x.1, x.2, hash, htoken, rfl, hopened⟩
      | revoke_session a hash =>
          refine Txn.Rules.wp_answer.mpr (Txn.Rules.wp_mono
            (sessionRules_refines.wp (wp_revoke_session (c := .revoke_session a hash)))
            ?_ fun _ _ _ _ => trivial)
          intro L ws _ w hends v hl hv
          exact (hends v (sessionRules_refines.later hl) hv).2
      | _ => exact hother fun _ _ _ => trivial
    refine Txn.Rules.wp_mono (Txn.Rules.wp_and hbase hsessions) ?_ ?_
    · rintro L ws reply w ⟨hcommits, hspec⟩ v hl hv
      refine ⟨hcommits v (sessionRules_refines.later hl) hv, ?_⟩
      rintro _ _ ⟨⟩
      exact hspec v hl hv
    · rintro L reply w ⟨hfails, -⟩ v hl hv
      exact ⟨hfails v (sessionRules_refines.later hl) hv, (by rintro _ _ ⟨⟩)⟩

/-- Every run moves by endings that do to sessions what they say. -/
theorem reachable_session_later {s : System} (h : (engine anyCall).Reachable World.empty s) :
    sessionRules.Later [] World.empty s.world := by
  have hv : sessionRules.valid World.empty := Consistent.empty
  refine (sessionRules_sound.reachable hv ?_).2
  exact Relation.ReflTransGen.mono
    (fun s _ hs => ⟨Txn.Rules.clear_of_presumes (fun _ => rfl) s, hs⟩) _ _ h

/-! ## The table and the log -/

/-- What a stored session stands for. -/
def SessionRow.credential (r : SessionRow) : Credentials.Credential ActorId Instant :=
  ⟨r.actor_id, r.expires_at, r.revoked_at⟩

/-- Each token has one session, and the table holds what the log says. -/
structure OnRecord (log : List SessionEvent) (db : Database) : Prop where
  once : ∀ i i' r r', db.session i = some r → db.session i' = some r' →
    r'.token_hash = r.token_hash → i' = i
  stored : ∀ i r, db.session i = some r → replay log r.token_hash = some r.credential
  replayed : ∀ hash c, replay log hash = some c →
    ∃ i r, db.session i = some r ∧ r.token_hash = hash ∧ r.credential = c
  issued : ∀ a hash now, .revoked a hash now ∈ log → ∃ expires, .issued a hash expires ∈ log

variable {log : List SessionEvent} {db' : Database} {i : SessionId} {now expires : Instant}

theorem OnRecord.empty : OnRecord [] Database.empty where
  once _ _ _ _ h := by cases h
  stored _ _ h := by cases h
  replayed _ _ h := by cases h
  issued _ _ _ h := by cases h

theorem OnRecord.same (h : OnRecord log db) (hsame : ∀ i, db'.session i = db.session i) :
    OnRecord log db' where
  once i i' r r' hr hr' := h.once i i' r r' ((hsame i).symm.trans hr) ((hsame i').symm.trans hr')
  stored i r hr := h.stored i r ((hsame i).symm.trans hr)
  replayed hash c hc := by
    obtain ⟨i, r, hr, hrow⟩ := h.replayed hash c hc
    exact ⟨i, r, (hsame i).trans hr, hrow⟩
  issued := h.issued

/-- A session opens with a token that is new: the log has not spoken of it, so the replay of the
other tokens is as before. -/
theorem OnRecord.opened (h : OnRecord log db) (ho : SessionOpened ws db a hash expires i)
    (hnew : hash ∉ Credentials.tokens log) :
    OnRecord (log ++ [.issued a hash expires]) (view ws db) := by
  have hself : (view ws db).session i = some ⟨a, hash, expires, none⟩ :=
    view_get_of_put (k := .session i) (by simp [ho.writes]) (by simp [ho.writes])
  have hother : ∀ j, j ≠ i → (view ws db).session j = db.session j := fun j hj =>
    view_get_of_untouched (k := .session j) (by simp [ho.writes, hj])
  have hunused : ∀ j r, db.session j = some r → r.token_hash ≠ hash := by
    rintro j r hr rfl
    cases (Credentials.continued_none hnew).symm.trans (h.stored j r hr)
  -- A session is the one that opens, or an old one with another token.
  have hcases : ∀ j r, (view ws db).session j = some r →
      (j = i ∧ r = ⟨a, hash, expires, none⟩) ∨ (db.session j = some r ∧ r.token_hash ≠ hash) := by
    intro j r hr
    by_cases hj : j = i
    · subst hj
      exact .inl ⟨rfl, Option.some.inj (hr.symm.trans hself)⟩
    · have hold := (hother j hj).symm.trans hr
      exact .inr ⟨hold, hunused j r hold⟩
  constructor
  · intro j j' r r' hr hr' htoken
    obtain ⟨rfl, rfl⟩ | ⟨hold, hne⟩ := hcases j r hr <;>
      obtain ⟨rfl, rfl⟩ | ⟨hold', hne'⟩ := hcases j' r' hr'
    · rfl
    · exact absurd htoken hne'
    · exact absurd htoken.symm hne
    · exact h.once j j' r r' hold hold' htoken
  · intro j r hr
    rw [Credentials.replay_append]
    obtain ⟨rfl, rfl⟩ | ⟨hold, hne⟩ := hcases j r hr
    · simp [Credentials.Event.apply, SessionRow.credential]
    · rw [Credentials.Event.apply, if_neg (Ne.symm hne)]
      exact h.stored j r hold
  · intro hash' c hc
    rw [Credentials.replay_append, Credentials.Event.apply] at hc
    split at hc
    · rename_i heq
      cases hc
      exact ⟨i, _, hself, heq, rfl⟩
    · obtain ⟨j, r, hr, htoken, hrow⟩ := h.replayed hash' c hc
      refine ⟨j, r, (hother j ?_).trans hr, htoken, hrow⟩
      rintro rfl
      cases hr.symm.trans ho.new
  · intro b hash' now hmem
    obtain hmem | hmem := List.mem_append.mp hmem
    · obtain ⟨x, hx⟩ := h.issued b hash' now hmem
      exact ⟨x, List.mem_append_left _ hx⟩
    · cases List.mem_singleton.mp hmem

/-- What a revocation makes of any session. -/
def SessionRow.revoked_by (r : SessionRow) (a : ActorId) (hash : TokenHash) (now : Instant) :
    SessionRow :=
  if hash = r.token_hash ∧ r.actor_id = a then r.revoked now else r

theorem SessionRow.revoked_by_token (r : SessionRow) :
    (r.revoked_by a hash now).token_hash = r.token_hash := by
  rw [SessionRow.revoked_by]
  split <;> rfl

/-- The row and the log are revoked in the same way, whoever revokes and whatever the token. -/
theorem SessionRow.revoked_by_credential (r : SessionRow) :
    Credentials.Event.apply r.token_hash (.revoked a hash now) (some r.credential)
      = some (r.revoked_by a hash now).credential := by
  rw [Credentials.Event.apply, Option.map_some, SessionRow.revoked_by]
  by_cases heq : hash = r.token_hash ∧ r.actor_id = a
  · rw [if_pos heq]
    exact congrArg some (if_pos heq)
  · rw [if_neg heq]
    exact congrArg some (if_neg heq)

/-- A revocation changes no session but its own. The row it writes is the one with the token, and a
token has one row. -/
theorem RevokedBy.session (h : RevokedBy ws db a hash now)
    (honce : ∀ i i' r r', db.session i = some r → db.session i' = some r' →
      r'.token_hash = r.token_hash → i' = i) (j : SessionId) :
    (view ws db).session j = (db.session j).map fun r => r.revoked_by a hash now := by
  obtain ⟨i, x, hx, rfl, rfl, rfl⟩ := h
  by_cases hj : j = i
  · subst hj
    rw [hx, Option.map_some, SessionRow.revoked_by, if_pos ⟨rfl, rfl⟩]
    exact view_get_of_put (k := .session j) List.mem_cons_self fun r hr => by
      cases List.mem_singleton.mp hr
      rfl
  · rw [show (view _ db).session j = db.session j from
      view_get_of_untouched (k := .session j) (by simp [hj])]
    cases hr : db.session j with
    | none => rfl
    | some r =>
        rw [Option.map_some, SessionRow.revoked_by, if_neg]
        exact fun heq => hj (honce i j x r hx hr heq.1.symm)

/-- A session is revoked, for the first time or again. With fresh tokens the log issued this one
before, so the revocation has something to speak of. -/
theorem OnRecord.revoked (h : OnRecord log db) (hfresh : Fresh log)
    (hrevoked : RevokedBy ws db a hash now) :
    OnRecord (log ++ [.revoked a hash now]) (view ws db) := by
  have hview := hrevoked.session h.once
  constructor
  · intro j j' r r' hr hr' heq
    rw [hview] at hr hr'
    obtain ⟨x, hx, rfl⟩ := Option.map_eq_some_iff.mp hr
    obtain ⟨x', hx', rfl⟩ := Option.map_eq_some_iff.mp hr'
    rw [SessionRow.revoked_by_token, SessionRow.revoked_by_token] at heq
    exact h.once j j' x x' hx hx' heq
  · intro j r hr
    rw [hview] at hr
    obtain ⟨x, hx, rfl⟩ := Option.map_eq_some_iff.mp hr
    rw [SessionRow.revoked_by_token, Credentials.replay_append, h.stored j x hx]
    exact x.revoked_by_credential
  · intro hash' c hc
    rw [Credentials.replay_append] at hc
    obtain ⟨c', hc', -⟩ := Option.map_eq_some_iff.mp hc
    obtain ⟨j, r, hr, rfl, rfl⟩ := h.replayed hash' c' hc'
    rw [hc', r.revoked_by_credential] at hc
    exact ⟨j, _, (hview j).trans (congrArg _ hr), r.revoked_by_token, Option.some.inj hc⟩
  · intro b hash' t hmem
    obtain hmem | hmem := List.mem_append.mp hmem
    · obtain ⟨x, hx⟩ := h.issued b hash' t hmem
      exact ⟨x, List.mem_append_left _ hx⟩
    · -- What is revoked is stored, so the log has issued it.
      cases List.mem_singleton.mp hmem
      obtain ⟨i, r, hr, rfl, rfl, -⟩ := hrevoked
      obtain ⟨pre, post, rfl, -⟩ := (Credentials.replay_eq hfresh).mp (h.stored i r hr)
      exact ⟨r.expires_at, by simp [SessionRow.credential]⟩

/-- The sessions of someone who leaves go, in the table by the departure and in the log by its
replay. -/
theorem OnRecord.dropped {guarded : Bool} (h : OnRecord log db) (hd : Departure ws db guarded now a) :
    OnRecord (log ++ [.dropped a]) (view ws db) := by
  have hview : ∀ j, (view ws db).session j = (db.session j).filter fun r => r.actor_id ≠ a := by
    intro j
    cases hr : db.session j with
    | none =>
        refine (hd.view_of_other (k := .session j) fun _ x hx => ?_).trans hr
        cases hr.symm.trans hx
    | some r =>
        by_cases ha : r.actor_id = a
        · rw [Option.filter_some, if_neg (by simpa using ha)]
          exact hd.view_of_person (k := .session j) rfl hr (congrArg some ha)
        · rw [Option.filter_some, if_pos (by simpa using ha)]
          refine (hd.view_of_other (k := .session j) fun _ x hx hp => ?_).trans hr
          cases hr.symm.trans hx
          exact ha (Option.some.inj hp)
  constructor
  · intro j j' r r' hr hr' heq
    rw [hview] at hr hr'
    exact h.once j j' r r' (Option.filter_eq_some_iff.mp hr).1 (Option.filter_eq_some_iff.mp hr').1 heq
  · intro j r hr
    rw [hview] at hr
    obtain ⟨hold, hne⟩ := Option.filter_eq_some_iff.mp hr
    rw [Credentials.replay_append, h.stored j r hold, Credentials.Event.apply, Option.filter_some]
    exact if_pos hne
  · intro hash' c hc
    rw [Credentials.replay_append] at hc
    obtain ⟨hold, hne⟩ := Option.filter_eq_some_iff.mp hc
    obtain ⟨j, r, hr, htoken, rfl⟩ := h.replayed hash' c hold
    exact ⟨j, r, (hview j).trans (Option.filter_eq_some_iff.mpr ⟨hr, hne⟩), htoken, rfl⟩
  · intro b hash' t hmem
    obtain hmem | hmem := List.mem_append.mp hmem
    · obtain ⟨x, hx⟩ := h.issued b hash' t hmem
      exact ⟨x, List.mem_append_left _ hx⟩
    · cases List.mem_singleton.mp hmem

/-- Other calls leave sessions alone: each effect on a session belongs to one of the three. -/
theorem CommitSpec.session_same {guarded : Bool} (h : CommitSpec guarded q ws reply db)
    (hsign : ∀ email verify token x i, q.call ≠ .sign_in email verify token x i)
    (hrevoke : ∀ a hash, q.call ≠ .revoke_session a hash) (hleave : ∀ a, q.call ≠ .leave_service a)
    (i : SessionId) : (view ws db).session i = db.session i := by
  obtain hsame | heffect := h.effect_or_same (.session i)
  · exact hsame
  · generalize (view ws db).rows.get (.session i) = r at heffect
    cases heffect with
    | session_opened _ _ hcall =>
        obtain ⟨email, verify, token, x, hq⟩ := hcall
        exact absurd hq (hsign email verify token x i)
    | session_revoked _ _ _ hcall =>
        obtain ⟨a, hash, hq⟩ := hcall
        exact absurd hq (hrevoke a hash)
    | departed a _ _ hq => exact absurd hq (hleave a)

/-! ## Runs -/

/-- **One ending** keeps table and log together, as long as the tokens are fresh. An ending adds at
most one event to the log, so there is one case for each kind of event, and one for none. -/
theorem OnRecord.step {w : World} {L : Held} {out : Outcome}
    (h : OnRecord (session_log w) w.store) (hg : sessionRules.guar q L out w)
    (hfresh : Fresh (session_log ((engine anyCall).finish q L out w))) :
    OnRecord (session_log ((engine anyCall).finish q L out w))
      ((engine anyCall).finish q L out w).store := by
  have hlog : session_log ((engine anyCall).finish q L out w)
      = session_log w ++ (session_event ⟨q, L, out, w.store⟩).toList := by
    simp only [session_log, Txn.Engine.finish, List.filterMap_append]
    cases hevent : session_event ⟨q, L, out, w.store⟩ <;> simp [hevent]
  rw [hlog] at hfresh ⊢
  cases out with
  | failed | aborted =>
      -- Only commits are events.
      have hnone : ∀ out : Outcome, (∀ ws reply, out ≠ .committed ws reply) →
          session_event ⟨q, L, out, w.store⟩ = none := by
        intro out hout
        refine Option.eq_none_iff_forall_ne_some.mpr fun x hx => ?_
        obtain ⟨ws, reply, hcommit⟩ := session_event_committed hx
        exact hout ws reply hcommit
      rw [hnone _ (by simp), Option.toList_none, List.append_nil]
      exact h
  | committed ws reply =>
      have hcommit : CommitSpec false q ws reply w.store := hg.1.2.1
      have hspec := hg.2 ws reply rfl
      obtain ⟨c, tx⟩ := q
      cases c with
      | sign_in email verify token expires i =>
          obtain ⟨a, t, hash, rfl, rfl, hopened⟩ := hspec
          exact h.opened hopened hfresh.not_before
      | revoke_session a hash => exact h.revoked hfresh.left hspec
      | leave_service a => exact h.dropped hcommit
      | _ =>
          change OnRecord (session_log w ++ []) (view ws w.store)
          rw [List.append_nil]
          exact h.same (hcommit.session_same (by simp) (by simp) (by simp))

/-- **The table is what the log says**, in every committed state with fresh tokens. The log only
grows, so tokens that are fresh at the end have been so all along. -/
theorem reachable_on_record {s : System} (h : (engine anyCall).Reachable World.empty s)
    (hfresh : Fresh (session_log s.world)) : OnRecord (session_log s.world) s.world.store := by
  refine Txn.Rules.Later.preserves
    (P := fun v : World => Fresh (session_log v) → OnRecord (session_log v) v.store) ?_
    (reachable_session_later h) (fun _ => OnRecord.empty) hfresh
  intro q L out w ih hg _ _ hfresh
  refine OnRecord.step (ih ?_) hg hfresh
  rw [session_log, Txn.Engine.finish, List.filterMap_append] at hfresh
  exact hfresh.left

/-! ## Resolving and revoking, by the log -/

theorem OnRecord.session_of_token (h : OnRecord log db) {r : SessionRow}
    (hr : db.session i = some r) : (sessions_with_token db r.token_hash).head? = some i := by
  have hmem : i ∈ sessions_with_token db r.token_hash := mem_sessions_with_token.mpr ⟨r, hr, rfl⟩
  cases hhead : (sessions_with_token db r.token_hash).head? with
  | none => exact absurd (List.head?_eq_none_iff.mp hhead) (List.ne_nil_of_mem hmem)
  | some j =>
      obtain ⟨x, hx, htoken⟩ := mem_sessions_with_token.mp (List.mem_of_mem_head? hhead)
      rw [h.once i j r x hr hx htoken]

/-- Whom a token resolves to, by the log: the query looks for one row, and the log speaks of one.
-/
theorem OnRecord.resolution (h : OnRecord log db) :
    resolution db hash now = some a ↔ Live log hash now a := by
  constructor
  · intro hres
    obtain ⟨i, hhead, hlive⟩ := Option.bind_eq_some_iff.mp hres
    obtain ⟨r, hr, rfl⟩ := Option.map_eq_some_iff.mp hlive
    obtain ⟨hrow, hcheck⟩ := Option.filter_eq_some_iff.mp hr
    obtain ⟨x, hx, rfl⟩ := mem_sessions_with_token.mp (List.mem_of_mem_head? hhead)
    cases hx.symm.trans hrow
    rw [SessionRow.live, Bool.and_eq_true, decide_eq_true_eq, decide_eq_true_eq] at hcheck
    exact ⟨_, h.stored i r hrow, rfl, hcheck.1, hcheck.2⟩
  · rintro ⟨c, hreplay, rfl, hrevoked, hlt⟩
    obtain ⟨i, r, hr, rfl, rfl⟩ := h.replayed hash c hreplay
    have hlive : r.live now = true := by
      rw [SessionRow.live, Bool.and_eq_true, decide_eq_true_eq, decide_eq_true_eq]
      exact ⟨hrevoked, hlt⟩
    rw [Fukulow.resolution, h.session_of_token hr, Option.bind_some, hr, Option.filter_some,
      if_pos hlive]
    rfl

/-- `resolve_session`, alone. -/
theorem resolve_alone (hash : TokenHash) (tx : Transaction) (db : Database) :
    (Request.mk (.resolve_session hash) tx).alone db
      = (match resolution db hash tx.now with
        | some a => .ok (.resolve_session (.ok a))
        | none => .error (.resolve_session (.error .noSession)), db) := by
  have hsolo : (resolve_session tx hash).Solo Write.apply db
      (fun a t => resolution db hash tx.now = some a ∧ t = db)
      (fun e => resolution db hash tx.now = none ∧ e = .noSession) db := by
    rw [solo_resolve_session]
    cases resolution db hash tx.now with
    | none => exact ⟨rfl, rfl⟩
    | some a => exact ⟨rfl, rfl⟩
  obtain ⟨a, t, heq, hres, rfl⟩ | ⟨e, heq, hres, rfl⟩ :=
    alone_of_solo (q := ⟨.resolve_session hash, tx⟩) rfl hsolo
  · rw [heq, hres]
  · rw [heq, hres]

/-- The answer of a call that ran alone, as the end of a program. -/
def answered : Except Reply Reply → Sql Reply Reply
  | .ok reply => .pure reply
  | .error reply => .throw reply

/-- In company `resolve_session` answers what it answers alone on the state that it reads. It has
no other statement, so nothing can come between. -/
theorem resolve_body (hash : TokenHash) (tx : Transaction) :
    (Request.mk (.resolve_session hash) tx).body
      = .read fun db => answered ((Request.mk (.resolve_session hash) tx).alone db).1 := by
  change (resolve_session tx hash).answer Reply.resolve_session = _
  rw [resolve_session_eq]
  refine congrArg Txn.Prog.read (funext fun db => ?_)
  rw [resolve_alone]
  cases hres : resolution db hash tx.now with
  | none =>
      simp only [hres]
      rfl
  | some a =>
      simp only [hres]
      rfl

/-- Revoking a stored session, alone: the first revocation stays, and a repeated one succeeds as
well. -/
theorem revoke_alone (h : OnRecord log db) (tx : Transaction) {r : SessionRow}
    (hr : db.session i = some r) : ∃ db',
    (Request.mk (.revoke_session r.actor_id r.token_hash) tx).alone db
        = (.ok (.revoke_session (.ok ())), db')
      ∧ db'.session i = some (r.revoked tx.now) := by
  have hsolo : (revoke_session tx r.actor_id r.token_hash).Solo Write.apply db
      (fun _ t => t = (Write.put (.session i) (some (r.revoked tx.now))).apply db)
      (fun _ => False) db := by
    rw [solo_revoke_session, h.session_of_token hr, Option.bind_some, hr, Option.filter_some,
      if_pos (by simp)]
    rfl
  obtain ⟨a, t, heq, rfl⟩ | ⟨e, -, he⟩ :=
    alone_of_solo (q := ⟨.revoke_session r.actor_id r.token_hash, tx⟩) rfl hsolo
  · exact ⟨_, heq, Txn.Store.get_put_self db.rows (Key.session i) _⟩
  · exact he.elim

/-- A resolving call has yet to read, or has its answer. -/
def Resolving (x : Txn.Task Database Write Resource LockMode Request Reply) : Prop :=
  ∀ hash, x.call.call = .resolve_session hash →
    (x.prog = x.call.body ∧ x.writes = []) ∨ ∃ b, x.prog = .pure b ∨ x.prog = .throw b

theorem resolving {s : System} (h : (engine anyCall).Reachable World.empty s) {t : ℕ}
    {x : Txn.Task Database Write Resource LockMode Request Reply}
    (hx : s.tasks.get t = some x) : Resolving x := by
  have hin : (engine anyCall).ReachableIn (fun _ => True) World.empty s :=
    Relation.ReflTransGen.mono (fun _ _ hstep => ⟨trivial, hstep⟩) _ _ h
  have hstart : ∀ c, Resolving ⟨c, c.body, (engine anyCall).claims c, []⟩ :=
    fun _ _ _ => .inl ⟨rfl, rfl⟩
  refine Txn.Engine.ReachableIn.in_flight (J := fun x _ => Resolving x) (fun c _ => hstart c) ?_
    (fun _ _ _ _ _ _ _ _ _ _ _ _ hy => hy) hin t x hx
  rintro ⟨⟨c, tx⟩, prog, L, ws⟩ x' v hJ hacts hash hcall
  have hc : c = .resolve_session hash := by
    cases hacts <;> exact hcall
  subst hc
  have hbefore := hJ hash rfl
  dsimp only at hbefore
  rw [resolve_body] at hbefore
  obtain ⟨rfl, rfl⟩ | ⟨b, rfl | rfl⟩ := hbefore
  · -- Its one action is to read.
    cases hacts with
    | read hp =>
        cases hp
        right
        dsimp only
        cases (Request.alone _ _).1 with
        | ok reply => exact ⟨reply, .inl rfl⟩
        | error reply => exact ⟨reply, .inr rfl⟩
    | lock hp | write hp | restart hp => cases hp
  · cases hacts with
    | read hp | lock hp | write hp | restart hp => cases hp
  · cases hacts with
    | read hp | lock hp | write hp | restart hp => cases hp

/-- A departure in the log has made its person departed, by the entry that it was read off. -/
theorem departed_of_dropped {s : System} (h : (engine anyCall).Reachable World.empty s)
    (hdropped : .dropped a ∈ session_log s.world) : s.world.store.departed a = true := by
  obtain ⟨e, he, hevent⟩ := List.mem_filterMap.mp hdropped
  refine departed_of_record (reachable_later h) he ?_
  obtain ⟨ws, reply, hout⟩ := session_event_committed hevent
  refine ⟨?_, ws, reply, hout⟩
  unfold session_event at hevent
  split at hevent
  case h_3 b _ hcall _ =>
    cases hevent
    exact hcall
  all_goals cases hevent

/-! ## The life of a session -/

/-- Does the token resolve to `a` for a call in `tx`? -/
def Resolves (db : Database) (hash : TokenHash) (tx : Transaction) (a : ActorId) : Prop :=
  (Request.mk (.resolve_session hash) tx).alone db = (.ok (.resolve_session (.ok a)), db)

/-- What the sessions of a committed state are, by what has happened. -/
structure SessionLife (s : System) : Prop where
  /-- A token resolves exactly when it was issued, is neither expired nor revoked since, and
  its holder has not left. -/
  resolves : ∀ hash tx a, Resolves s.world.store hash tx a ↔ ∃ pre post expires,
    session_log s.world = pre ++ .issued a hash expires :: post ∧ tx.now < expires
      ∧ (∀ now, .revoked a hash now ∉ post) ∧ .dropped a ∉ session_log s.world
  /-- A call that resolves in company answers as it would alone where it reads. -/
  reads : ∀ t x k hash, s.tasks.get t = some x → x.call.call = .resolve_session hash →
    x.prog = .read k → k (view x.writes s.world.store) = answered (x.call.alone s.world.store).1
  /-- Otherwise there is no session. -/
  otherwise : ∀ hash tx, (∀ a, ¬ Resolves s.world.store hash tx a) →
    (Request.mk (.resolve_session hash) tx).alone s.world.store
      = (.error (.resolve_session (.error .noSession)), s.world.store)
  /-- A session expires when it was to when it was opened, and is revoked since it was for the
  first time. -/
  rows : ∀ a hash expires revoked, (∃ i, s.world.store.session i = some ⟨a, hash, expires, revoked⟩)
    ↔ ∃ pre post, session_log s.world = pre ++ .issued a hash expires :: post
      ∧ .dropped a ∉ session_log s.world ∧ revoked = revocation a hash post
  /-- While its holder is there a session can be revoked, for the first time or again. -/
  again : ∀ pre post a hash expires tx, session_log s.world = pre ++ .issued a hash expires :: post →
    .dropped a ∉ session_log s.world →
    ∃ db, (Request.mk (.revoke_session a hash) tx).alone s.world.store
        = (.ok (.revoke_session (.ok ())), db)
      ∧ ∃ i, db.session i
        = some ⟨a, hash, expires, some ((revocation a hash post).getD tx.now)⟩
  /-- What was revoked had been issued. -/
  issued : ∀ a hash now, .revoked a hash now ∈ session_log s.world →
    ∃ expires, .issued a hash expires ∈ session_log s.world
  /-- Whoever revokes, no session of another actor and none with another token changes. -/
  others : ∀ e ∈ s.world.history, ∀ b hash, e.call.call = .revoke_session b hash → ∀ i r,
    e.before.session i = some r → (r.actor_id ≠ b ∨ r.token_hash ≠ hash) →
    (view e.outcome.writes e.before).session i = some r

/-- The guarantee of an entry, under the rules with the sessions. -/
theorem reachable_session_entry {s : System} (h : (engine anyCall).Reachable World.empty s)
    {e : Entry} (he : e ∈ s.world.history) :
    ∀ ws reply, e.outcome = .committed ws reply → SessionSpec e.call ws reply e.before := by
  obtain ⟨pre, post, hs⟩ := List.append_of_mem he
  obtain ⟨v, -, -, hbefore, -, hg, -⟩ :=
    (reachable_session_later h).at_entry hs (by simp [World.empty])
  rw [← hbefore]
  exact hg.2

/-- A revocation leaves the sessions of others and of other tokens alone; no freshness is needed
for this. -/
theorem RevokedBy.other (h : RevokedBy ws db a hash now) {r : SessionRow}
    (hr : db.session i = some r) (hne : r.actor_id ≠ a ∨ r.token_hash ≠ hash) :
    (view ws db).session i = some r := by
  obtain ⟨j, x, hx, rfl, rfl, rfl⟩ := h
  by_cases hj : i = j
  · subst hj
    cases hr.symm.trans hx
    simp at hne
  · exact (view_get_of_untouched (k := .session i) (by simp [hj])).trans hr

section Record

variable {s : System} (h : (engine anyCall).Reachable World.empty s)
include h

/-- Whose session is stored has not left: a departure would have taken the session with it, and
none is opened after it. -/
theorem not_dropped {r : SessionRow} (hr : s.world.store.session i = some r) :
    .dropped r.actor_id ∉ session_log s.world :=
  fun hdropped => (reachable_consistent h).noSession (departed_of_dropped h hdropped) hr rfl

/-- A stored session, by the log: it was issued once, its holder is there, and it is revoked since
the first revocation after that. -/
theorem session_row_iff (hfresh : Fresh (session_log s.world)) {revoked : Option Instant} :
    (∃ i, s.world.store.session i = some ⟨a, hash, expires, revoked⟩)
      ↔ ∃ pre post, session_log s.world = pre ++ .issued a hash expires :: post
        ∧ .dropped a ∉ session_log s.world ∧ revoked = revocation a hash post := by
  have hrec := reachable_on_record h hfresh
  constructor
  · rintro ⟨i, hr⟩
    obtain ⟨pre, post, heq, -, hrevoked⟩ := (Credentials.replay_eq hfresh).mp (hrec.stored i _ hr)
    exact ⟨pre, post, heq, not_dropped h hr, hrevoked⟩
  · rintro ⟨pre, post, heq, hstays, rfl⟩
    have hreplay : replay (session_log s.world) hash
        = some ⟨a, expires, revocation a hash post⟩ := by
      refine (Credentials.replay_eq hfresh).mpr ⟨pre, post, heq, fun hmem => hstays ?_, rfl⟩
      rw [heq]
      exact List.mem_append_right _ (List.mem_cons_of_mem _ hmem)
    obtain ⟨i, r, hr, rfl, hrow⟩ := hrec.replayed hash _ hreplay
    simp only [SessionRow.credential, Credentials.Credential.mk.injEq] at hrow
    obtain ⟨rfl, rfl, hrevoked⟩ := hrow
    exact ⟨i, by rw [hr, ← hrevoked]⟩

theorem resolves_iff_live (hfresh : Fresh (session_log s.world)) {tx : Transaction} :
    Resolves s.world.store hash tx a ↔ Live (session_log s.world) hash tx.now a := by
  rw [← (reachable_on_record h hfresh).resolution, Resolves, resolve_alone]
  cases resolution s.world.store hash tx.now <;> simp

/-- **What the log says of every session.** Each field is read off the replay of the log, by the
general facts about credentials. -/
theorem reachable_session_life (hfresh : Fresh (session_log s.world)) : SessionLife s where
  resolves hash tx a := by
    have hlive : Live (session_log s.world) hash tx.now a ↔ _ := Credentials.live_iff hfresh
    rw [resolves_iff_live h hfresh]
    constructor
    · intro hl
      obtain ⟨pre, post, x, heq, hlt, hrevoked, -⟩ := hlive.mp hl
      obtain ⟨c, hreplay, rfl, -⟩ := hl
      obtain ⟨i, r, hr, -, rfl⟩ := (reachable_on_record h hfresh).replayed hash c hreplay
      exact ⟨pre, post, x, heq, hlt, hrevoked, not_dropped h hr⟩
    · rintro ⟨pre, post, x, heq, hlt, hrevoked, hstays⟩
      refine hlive.mpr ⟨pre, post, x, heq, hlt, hrevoked, fun hmem => hstays ?_⟩
      rw [heq]
      exact List.mem_append_right _ (List.mem_cons_of_mem _ hmem)
  reads t x k hash hx hcall hprog := by
    -- Before its one read the call is as it started; after it there is nothing to read.
    obtain ⟨hbody, hwrites⟩ | ⟨b, hpure | hthrow⟩ := resolving h hx hash hcall
    · obtain ⟨⟨c, tx⟩, prog, L, ws⟩ := x
      cases hcall
      cases hwrites
      rw [resolve_body] at hbody
      cases hprog.symm.trans hbody
      rfl
    · cases hprog.symm.trans hpure
    · cases hprog.symm.trans hthrow
  otherwise hash tx hnot := by
    have hnone : resolution s.world.store hash tx.now = none := by
      refine Option.eq_none_iff_forall_ne_some.mpr fun a ha => hnot a ?_
      rw [Resolves, resolve_alone, ha]
    rw [resolve_alone, hnone]
  rows a hash expires revoked := session_row_iff h hfresh
  again pre post a hash expires tx heq hstays := by
    obtain ⟨i, hr⟩ := (session_row_iff h hfresh).mpr ⟨pre, post, heq, hstays, rfl⟩
    obtain ⟨db, halone, hrow⟩ := revoke_alone (reachable_on_record h hfresh) tx hr
    exact ⟨db, halone, i, hrow⟩
  issued := (reachable_on_record h hfresh).issued
  others e he b hash hcall i r hr hne := by
    cases hout : e.outcome with
    | failed | aborted => exact hr
    | committed ws reply =>
        have hspec := reachable_session_entry h he ws reply hout
        rw [SessionSpec, hcall] at hspec
        exact RevokedBy.other hspec hr hne

end Record

/-- **The life of a session**, in every run with fresh tokens; and later on, once a token has
stopped resolving, it never resolves again, and no session expires at another time. -/
theorem session_life {s s' : System} (h : (engine anyCall).Reachable World.empty s)
    (hs : (engine anyCall).Steps s s') (hfresh : Fresh (session_log s'.world)) :
    SessionLife s ∧
    (∀ hash tx tx', hash ∈ Credentials.tokens (session_log s.world) → tx.now ≤ tx'.now →
      (∀ a, ¬ Resolves s.world.store hash tx a) → ∀ a, ¬ Resolves s'.world.store hash tx' a)
    ∧ ∀ i i' r r', s.world.store.session i = some r → s'.world.store.session i' = some r' →
      r'.token_hash = r.token_hash → r'.actor_id = r.actor_id ∧ r'.expires_at = r.expires_at := by
  have h' : (engine anyCall).Reachable World.empty s' := h.trans hs
  obtain ⟨more, hmore⟩ : session_log s.world <+: session_log s'.world :=
    (reachable_later_steps h hs).history.filterMap _
  have hfresh₀ : Fresh (session_log s.world) := by
    rw [← hmore] at hfresh
    exact hfresh.left
  refine ⟨reachable_session_life h hfresh₀, ?_, ?_⟩
  · intro hash tx tx' hissued hnow hnot a hresolves
    rw [resolves_iff_live h' hfresh, ← hmore] at hresolves
    rw [← hmore] at hfresh
    exact hnot a ((resolves_iff_live h hfresh₀).mpr (hresolves.earlier hfresh hissued hnow))
  · -- Both rows are what the log says of one token, and the later log only adds to the earlier.
    rintro i i' r r' hr hr' htoken
    have hstored := (reachable_on_record h hfresh₀).stored i r hr
    have hstored' := (reachable_on_record h' hfresh).stored i' r' hr'
    obtain ⟨pre, post, heq, -⟩ := (Credentials.replay_eq hfresh₀).mp hstored
    have hissued : r.token_hash ∈ Credentials.tokens (session_log s.world) :=
      Credentials.mem_tokens.mpr ⟨_, _, heq ▸ List.mem_append_right _ List.mem_cons_self⟩
    rw [← hmore, htoken] at hstored'
    rw [← hmore] at hfresh
    obtain ⟨c, hc, hholder, hexpires, -⟩ := Credentials.replay_earlier hfresh hissued hstored'
    cases hstored.symm.trans hc
    exact ⟨hholder, hexpires⟩

/-- Two sessions of one person; the first is revoked. -/
def twoSessions : List Request :=
  [⟨.create_person ['a'] [] ['A'] ⟨1⟩, ⟨0, 1⟩⟩,
    ⟨.sign_in ['a'] (fun _ => true) (some (['t'], first_key)) 100 ⟨50⟩, ⟨1, 2⟩⟩,
    ⟨.sign_in ['a'] (fun _ => true) (some (['u'], second_key)) 200 ⟨51⟩, ⟨2, 3⟩⟩,
    ⟨.revoke_session ⟨1⟩ first_key, ⟨5, 4⟩⟩]

/-- The second session resolves, and the first one is revoked since it was. -/
theorem session_life_revoked : ∃ s : System, Resolves s.world.store second_key ⟨60, 9⟩ ⟨1⟩
    ∧ ∃ i, s.world.store.session i = some ⟨⟨1⟩, first_key, 100, some 5⟩ := by
  obtain ⟨s, hs, hcheck⟩ := reachable_of_serve 100 twoSessions
    (fun s => session_log s.world
      = [.issued ⟨1⟩ first_key 100, .issued ⟨1⟩ second_key 200, .revoked ⟨1⟩ first_key 5])
    (by decide +kernel)
  have hlog := of_decide_eq_true hcheck
  have hfresh : Fresh (session_log s.world) := by
    rw [hlog]
    unfold Fresh
    decide
  obtain ⟨hlife, -⟩ := session_life hs .refl hfresh
  refine ⟨s, (hlife.resolves _ _ _).mpr ?_, (hlife.rows _ _ _ _).mpr ?_⟩
  · exact ⟨[.issued ⟨1⟩ first_key 100], [.revoked ⟨1⟩ first_key 5], 200, hlog, by decide, by simp,
      by simp [hlog]⟩
  · exact ⟨[], [.issued ⟨1⟩ second_key 200, .revoked ⟨1⟩ first_key 5], hlog, by simp [hlog], rfl⟩

end Fukulow
