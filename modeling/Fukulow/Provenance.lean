/-
Where rows come from: a session, an invite, a person and a name, traced to the call that made
them, and a session to the password behind it.

A commit that changes such a row leaves what it was made with; so whatever is stored was once
asked for by a call on record (`made_by`).
-/
import Fukulow.SessionLife
import Fukulow.SigningIn
import Fukulow.Uniqueness

set_option autoImplicit false

namespace Fukulow

open Txn (LockMode)

variable {q : Request} {ws : List Write} {reply : Reply} {db : Database}
variable {a : ActorId} {i : SessionId}

/-- **The rule.** A row is as an earlier call made it when each commit makes a row of its own or
keeps what an old one was made with. By induction over the run, the call that made a stored row is
in the history. -/
theorem made_by {k : Key} {P : Entry → Row k → Prop}
    (hmade : ∀ q L ws reply db, CommitSpec false q ws reply db → SessionSpec q ws reply db →
      Disciplined q.call L ws db → ∀ y, (view ws db).rows.get k = some y →
        P ⟨q, L, .committed ws reply, db⟩ y ∨ ∃ x, db.rows.get k = some x ∧ ∀ e, P e x → P e y)
    {s : System} (h : (engine anyCall).Reachable World.empty s) :
    ∀ y, s.world.store.rows.get k = some y →
      ∃ pre e post, s.world.history = pre ++ e :: post ∧ P e y := by
  refine Txn.Rules.Later.preserves (P := fun v : World => ∀ y, v.store.rows.get k = some y →
    ∃ pre e post, v.history = pre ++ e :: post ∧ P e y) ?_ (reachable_session_later h) ?_
  · intro q L out w ih hg _ _ y hy
    have hold : (∃ x, w.store.rows.get k = some x ∧ ∀ e, P e x → P e y) → ∃ pre e post,
        w.history ++ [Txn.Entry.mk q L out w.store] = pre ++ e :: post ∧ P e y := by
      rintro ⟨x, hx, hkeep⟩
      obtain ⟨pre, e, post, heq, hP⟩ := ih x hx
      exact ⟨pre, e, post ++ [_], by rw [heq, List.append_assoc, List.cons_append], hkeep e hP⟩
    cases out with
    | failed | aborted => exact hold ⟨y, hy, fun _ hP => hP⟩
    | committed ws reply =>
        obtain hP | hrow := hmade q L ws reply w.store hg.1.2.1 (hg.2 ws reply rfl) hg.1.1 y hy
        · exact ⟨w.history, _, [], rfl, hP⟩
        · exact hold hrow
  · rintro y ⟨⟩

/-- A row that was not there is one that the call is there to add: the discipline lets no call
write into another's tables. -/
theorem CommitSpec.creates_new (h : CommitSpec false q ws reply db) {k : Key} {y : Row k}
    (hy : (view ws db).rows.get k = some y) (hnew : db.rows.get k = none) : q.call.creates k := by
  obtain hsame | hput := view_get ws db k
  · cases (hsame.symm.trans hy).symm.trans hnew
  · exact h.creates (hy ▸ hput) hnew

/-- Every row was added by a call that is there to add it, and that committed. -/
theorem row_created_by {s : System} (h : (engine anyCall).Reachable World.empty s) {k : Key}
    {y : Row k} (hy : s.world.store.rows.get k = some y) :
    ∃ pre e post, s.world.history = pre ++ e :: post ∧ e.call.call.creates k
      ∧ ∃ ws reply, e.outcome = .committed ws reply := by
  refine made_by (P := fun e _ => e.call.call.creates k ∧ ∃ ws reply, e.outcome = .committed ws reply)
    ?_ h y hy
  intro q L ws reply db hspec _ _ y hy
  cases hx : db.rows.get k with
  | some x => exact .inr ⟨x, rfl, fun _ hP => hP⟩
  | none => exact .inl ⟨hspec.creates_new hy hx, ws, reply, rfl⟩

/-! ## Sessions -/

/-- The call signed in, and the session was opened with what the row says. -/
def OpenedBy (i : SessionId) (e : Entry) (r : SessionRow) : Prop :=
  ∃ email verify t ws, e.call.call = .sign_in email verify (some (t, r.token_hash)) r.expires_at i
    ∧ e.outcome = .committed ws (.sign_in (.ok (r.actor_id, t)))

/-- Every stored session is the work of a sign-in that is on record, with the token, the actor and
the end that the row has; a revocation leaves these three alone. -/
theorem session_opened_by {s : System} (h : (engine anyCall).Reachable World.empty s)
    {r : SessionRow} (hr : s.world.store.session i = some r) :
    ∃ pre e post, s.world.history = pre ++ e :: post ∧ OpenedBy i e r := by
  refine made_by (k := .session i) (P := OpenedBy i) ?_ h r hr
  intro q L ws reply db hspec hsession _ y hy
  obtain hold | heffect := hspec.effect_or_old hy
  · exact .inr ⟨y, hold, fun _ hP => hP⟩
  · generalize hsome : some y = x at heffect
    cases heffect with
    | session_opened _ _ hcall =>
        obtain ⟨email, verify, token, expires, hq⟩ := hcall
        rw [SessionSpec, hq] at hsession
        -- The effect says only that a session is opened; with what is in the call's own spec.
        obtain ⟨b, t, hash, rfl, rfl, hopened⟩ := hsession
        have hrow : (view ws db).session i = some ⟨b, hash, expires, none⟩ :=
          view_get_of_put (k := .session i) (by simp [hopened.writes]) (by simp [hopened.writes])
        cases hy.symm.trans hrow
        exact .inl ⟨email, verify, t, ws, hq, rfl⟩
    | session_revoked _ x now hcall hx =>
        cases hsome
        exact .inr ⟨x, hx, fun _ hP => hP⟩
    | departed _ _ x => cases hsome

/-- A state before the call had the user whose email was given, with a hash that the verifier
accepts. -/
def PasswordAccepted (pre : List Entry) (e : Entry) (a : ActorId) : Prop :=
  ∀ email verify token expires i, e.call.call = .sign_in email verify token expires i →
    storable email = true → ∃ db ∈ (Txn.World.mk e.before pre).states, ∃ u, db.user a = some u
      ∧ lower u.email = lower email ∧ verify u.password_hash = true

/-- Whoever signs in has passed the verifier, on the stored hash of the user with that email. -/
theorem signed_in_accepted {s : System} (h : (engine anyCall).Reachable World.empty s)
    {pre post : List Entry} {e : Entry} (hs : s.world.history = pre ++ e :: post) {t : Text}
    (hout : e.outcome = .committed ws (.sign_in (.ok (a, t)))) : PasswordAccepted pre e a := by
  intro email verify token expires i hcall hstorable
  obtain ⟨s', hrun, rfl⟩ := asking_runs.mp h
  obtain ⟨pre', rest, hsplit, rfl, hrest⟩ := List.map_eq_append_iff.mp hs
  obtain ⟨e', post', rfl, rfl, rfl⟩ := List.map_eq_cons_iff.mp hrest
  -- A call that has answered was not aborted.
  have hend : e'.outcome ≠ .aborted := by
    intro haborted
    rw [Txn.Entry.map, haborted] at hout
    cases hout
  have hdecided := sign_in_decided hrun hsplit hcall hstorable hend
  generalize hout' : e'.outcome = o at hdecided
  rw [Txn.Entry.map, hout'] at hout
  cases hdecided with
  | signed_in n b r t' hash haccepted =>
      cases hout
      obtain ⟨db, hdb, hr⟩ := haccepted.read
      exact ⟨db, List.mem_of_getElem? hdb, r, hr, haccepted.email, haccepted.verified⟩
  | unknown | refused | departed | no_token | taken => cases hout

/-! ## Invites -/

/-- The call created the invite with what the row says. -/
def CreatedBy (i : InviteId) (e : Entry) (r : InviteRow) : Prop :=
  (∃ t, e.call.call = .create_invite r.created_by_actor_id r.organization_id
      (some (t, r.token_hash)) r.expires_at r.max_uses i)
    ∧ ∃ ws reply, e.outcome = .committed ws reply

/-- Every stored invite was created on record, with its token, its end, its limit and by its
creator; uses and the revocation leave these alone. -/
theorem invite_created_by {s : System} (h : (engine anyCall).Reachable World.empty s)
    {i : InviteId} {r : InviteRow} (hr : s.world.store.invite i = some r) :
    ∃ pre e post, s.world.history = pre ++ e :: post ∧ CreatedBy i e r := by
  refine made_by (k := .invite i) (P := CreatedBy i) ?_ h r hr
  intro q L ws reply db hspec _ _ y hy
  obtain hold | heffect := hspec.effect_or_old hy
  · exact .inr ⟨y, hold, fun _ hP => hP⟩
  · generalize hsome : some y = x at heffect
    cases heffect with
    | invite_created p _ x _ _ _ _ _ hcall =>
        obtain ⟨t, expires, hq⟩ := hcall
        rw [CommitSpec, hq] at hspec
        obtain ⟨t', hash, htoken, -, -, -, hchange⟩ := hspec
        cases htoken
        cases hy.symm.trans hchange.row
        exact .inl ⟨⟨t, hq⟩, ws, reply, rfl⟩
    | invite_revoked _ x now xid hx =>
        cases hsome
        exact .inr ⟨x, hx, fun _ hP => hP⟩
    | invite_used _ x xid hx =>
        cases hsome
        exact .inr ⟨x, hx, fun _ hP => hP⟩
    | departed _ _ x _ _ _ hpersonal => cases hpersonal

/-! ## People -/

/-- The call makes the person `a`. -/
def Call.enrolls (c : Call) (email password_hash display_name : Text) (a : ActorId) : Prop :=
  c = .create_person email password_hash display_name a
    ∨ ∃ hash, c = .accept_invite hash email password_hash display_name a

/-- The call made the person, with this email and this stored hash. -/
def EnrolledBy (a : ActorId) (e : Entry) (r : UserRow) : Prop :=
  (∃ name, e.call.call.enrolls r.email r.password_hash name a)
    ∧ ∃ ws reply, e.outcome = .committed ws reply

/-- The call made the person, with this name. -/
def NamedBy (a : ActorId) (e : Entry) (r : ActorRow) : Prop :=
  ∀ name, r.display_name = some name → (∃ email hash, e.call.call.enrolls email hash name a)
    ∧ ∃ ws reply, e.outcome = .committed ws reply

/-- What a call that makes a person writes of them: the user with email and hash, and the actor
with the name. -/
theorem CommitSpec.enrolls {email hash name : Text} (hspec : CommitSpec false q ws reply db)
    (hq : q.call.enrolls email hash name a) :
    (view ws db).user a = some ⟨email, hash⟩
      ∧ (view ws db).actor a = some ⟨.human, some name, none⟩ := by
  rw [CommitSpec] at hspec
  obtain hq | ⟨token, hq⟩ := hq
  all_goals rw [hq] at hspec
  · obtain ⟨-, -, rfl⟩ := hspec
    exact ⟨view_get_of_put (k := .user a) (by simp) (by simp),
      view_get_of_put (k := .actor a) (by simp) (by simp)⟩
  · obtain ⟨i, r, -, -, -, -, -, -, rfl⟩ := hspec
    exact ⟨view_get_of_put (k := .user a) (by simp) (by simp),
      view_get_of_put (k := .actor a) (by simp) (by simp)⟩

/-- A call that adds a user or an actor makes a person. -/
theorem Call.creates_person {c : Call} (h : c.creates (.user a) ∨ c.creates (.actor a)) :
    ∃ email hash name, c.enrolls email hash name a := by
  cases c with
  | create_person email hash name b =>
      have hb : a = b := by
        obtain (h | h) | (h | h) := h <;> cases h
        all_goals rfl
      exact ⟨email, hash, name, .inl (hb ▸ rfl)⟩
  | accept_invite token email hash name b =>
      have hb : a = b := by
        obtain (h | h | ⟨o, h⟩) | (h | h | ⟨o, h⟩) := h <;> cases h
        all_goals rfl
      exact ⟨email, hash, name, .inr ⟨token, hb ▸ rfl⟩⟩
  | create_organization => obtain (h | h) | (h | h) := h <;> cases h
  | _ => obtain h | h := h <;> cases h

/-- Every stored user was made on record, with this email and this hash, which nothing changes
afterwards. -/
theorem user_enrolled_by {s : System} (h : (engine anyCall).Reachable World.empty s) {r : UserRow}
    (hr : s.world.store.user a = some r) :
    ∃ pre e post, s.world.history = pre ++ e :: post ∧ EnrolledBy a e r := by
  refine made_by (k := .user a) (P := EnrolledBy a) ?_ h r hr
  intro q L ws reply db hspec _ hd y hy
  obtain hsame | hput := view_get ws db (.user a)
  · exact .inr ⟨y, hsame.symm.trans hy, fun _ hP => hP⟩
  · -- A user's row is never changed.
    rw [hy] at hput
    have hnew := (hd (.user a) (some y) hput).fixed y rfl rfl
    obtain ⟨email, hash, name, hq⟩ := Call.creates_person (.inl (hspec.creates hput hnew))
    cases hy.symm.trans (hspec.enrolls hq).1
    exact .inl ⟨⟨name, hq⟩, ws, reply, rfl⟩

/-- Every name was given on record, by the call that made the person; to leave is to lose it. -/
theorem actor_named_by {s : System} (h : (engine anyCall).Reachable World.empty s) {r : ActorRow}
    (hr : s.world.store.actor a = some r) :
    ∃ pre e post, s.world.history = pre ++ e :: post ∧ NamedBy a e r := by
  refine made_by (k := .actor a) (P := NamedBy a) ?_ h r hr
  intro q L ws reply db hspec _ _ y hy
  cases hx : db.rows.get (.actor a) with
  | none =>
      obtain ⟨email, hash, name, hq⟩ := Call.creates_person (.inr (hspec.creates_new hy hx))
      cases hy.symm.trans (hspec.enrolls hq).2
      refine .inl fun name' hname => ?_
      cases hname
      exact ⟨⟨email, hash, hq⟩, ws, reply, rfl⟩
  | some x =>
      obtain hold | heffect := hspec.effect_or_old hy
      · exact .inr ⟨y, hx.symm.trans hold, fun _ hP => hP⟩
      · generalize hsome : some y = z at heffect
        cases heffect with
        | actor_created _ _ hnone => cases hx.symm.trans hnone
        | departed _ _ x' _ _ _ _ hx' =>
            cases hsome
            -- Who leaves loses the name, so nothing is left to trace.
            exact .inr ⟨x, rfl, fun e _ name hname => by cases hname⟩

end Fukulow
