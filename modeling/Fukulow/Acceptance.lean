/-
Accepting an invite agrees with its pre-check, and is all or nothing.

`invite_is_usable` decides with the kind in its query; `accept_invite` decides in an
`UPDATE` that does not look at the kind, checks the kind afterwards, and meets the trigger
and the membership policy on its way. All of them admit the same invites, in every state
that satisfies the constraints of the schema.
-/
import Fukulow.Serial.Invites
import Fukulow.Serial.Runs

set_option autoImplicit false

namespace Fukulow

/-- The constraints of the schema that acceptance depends on. -/
structure Enforced (db : Database) : Prop extends InviteConstraints db where
  user : ∀ a, db.user a ≠ none → db.actor a ≠ none
  member : ∀ o a, db.member o a ≠ none → db.actor a ≠ none

variable {db : Database} {tx : Transaction} {hash : TokenHash} {email password_hash name : Text}
variable {a : ActorId}

/-! ## The states reached one call at a time -/

/-- An invite after a commit is one from before, under its token and used at least as often, or is
being created with the token of the call. -/
theorem CommitSpec.invite_after {guarded : Bool} {q : Request} {ws : List Write} {reply : Reply}
    (h : CommitSpec guarded q ws reply db) {i : InviteId} {r : InviteRow}
    (hr : (view ws db).invite i = some r) :
    (∃ y, db.invite i = some y ∧ y.token_hash = r.token_hash ∧ y.used_count ≤ r.used_count)
      ∨ r.used_count = 0 ∧ ∃ p t expires,
        q.call = .create_invite p r.organization_id (some (t, r.token_hash)) expires r.max_uses i := by
  obtain hold | heffect := h.effect_or_old hr
  · exact .inl ⟨r, hold, rfl, le_refl _⟩
  · generalize hx : some r = x at heffect
    cases heffect with
    | invite_created p _ y _ _ hused _ _ hcall =>
        cases hx
        obtain ⟨t, expires, hcall⟩ := hcall
        exact .inr ⟨hused, p, t, expires, hcall⟩
    | invite_revoked _ y _ _ hy =>
        cases hx
        exact .inl ⟨y, hy, rfl, le_refl _⟩
    | invite_used _ y _ hy =>
        cases hx
        exact .inl ⟨y, hy, rfl, Int.le_add_one (le_refl _)⟩
    | departed _ _ _ _ _ _ hpersonal => cases hpersonal

/-- An invite that is created alone has a token that no other invite has: the unique index of the
column would have refused it. -/
theorem fresh_of_created (href : References db) {q : Request} {p : ActorId} {o : OrganizationId}
    {t : Text} {expires : Instant} {n : ℤ} {i : InviteId} {reply : Reply} {t' : Database}
    (hq : q.call = .create_invite p o (some (t, hash)) expires n i)
    (hok : q.alone db = (.ok reply, t')) {j : InviteId} {r : InviteRow} (hr : db.invite j = some r) :
    r.token_hash ≠ hash := by
  obtain ⟨c, tx⟩ := q
  cases hq
  obtain ⟨-, -, -, -, hfree⟩ | ⟨e, heq, -⟩ := alone_of_solo
    (q := ⟨.create_invite p o (some (t, hash)) expires n i, tx⟩) rfl (solo_create_invite href)
  · intro htoken
    have htaken : db.inviteToken hash = true :=
      Txn.Store.select_nonempty_iff.mpr ⟨.invite j, r, j, hr, by simp [htoken]⟩
    cases htaken.symm.trans (hfree t hash rfl)
  · cases heq.symm.trans hok

/-- **A call alone keeps the constraints.** Each of them is checked when the commit comes in, and
the effect of every other call on these rows is known. -/
theorem alone_enforced {q : Request} (hc : Consistent db) (href : References db)
    (h : Enforced db) : Enforced (q.alone db).2 := by
  obtain ⟨ws, reply, heq, hcommit⟩ | ⟨reply, heq⟩ := alone_cases true hc q
  case inr => rwa [heq]
  rw [heq]
  have href' : References (view ws db) := hcommit.references href
  refine ⟨⟨?_, ?_, fun i r hr => href'.invite i r hr⟩, ?_, ?_⟩
  · -- Two invites with one token: both old, or one is new and its token was free.
    intro i j r r' hr hr' htoken
    obtain ⟨y, hy, hsame, -⟩ | ⟨-, p, t, expires, hcall⟩ := hcommit.invite_after hr
    · obtain ⟨y', hy', hsame', -⟩ | ⟨-, p', t', expires', hcall'⟩ := hcommit.invite_after hr'
      · exact h.token i j y y' hy hy' (hsame.trans (htoken.trans hsame'.symm))
      · exact absurd (hsame.trans htoken) (fresh_of_created href hcall' heq hy)
    · obtain ⟨y', hy', hsame', -⟩ | ⟨-, p', t', expires', hcall'⟩ := hcommit.invite_after hr'
      · exact absurd (hsame'.trans htoken.symm) (fresh_of_created href hcall heq hy')
      · rw [hcall] at hcall'
        exact (Call.create_invite.inj hcall').2.2.2.2.2
  · intro i r hr
    obtain ⟨y, hy, -, hle⟩ | ⟨hzero, -⟩ := hcommit.invite_after hr
    · exact (h.uses i y hy).trans hle
    · exact hzero.ge
  · intro b hb
    obtain ⟨r, hr⟩ := Option.ne_none_iff_exists'.mp hb
    obtain hold | heffect := hcommit.effect_or_old (k := .user b) hr
    · exact hcommit.stays (k := .actor b) rfl (h.user b (by simp [Database.user, hold]))
    · generalize hx : some r = x at heffect
      cases heffect with
      | user_created _ _ _ _ hactor => exact hactor
      | departed => cases hx
  · intro o b hb
    obtain ⟨r, hr⟩ := Option.ne_none_iff_exists'.mp hb
    exact (href'.member o b r hr).2

/-- Calls one after another keep the constraints, by induction on their number. -/
theorem served_enforced {qs : List Request} (hc : Consistent db) (href : References db)
    (h : Enforced db) : Enforced (served qs db) := by
  induction qs generalizing db with
  | nil => exact h
  | cons q qs ih => exact ih (alone_consistent hc) (alone_references hc href) (alone_enforced hc href h)

/-- Of an empty database the constraints say nothing. -/
theorem Enforced.empty : Enforced Database.empty where
  token _ _ _ _ h := by cases h
  uses _ _ h := by cases h
  organization _ _ h := by cases h
  user _ h := absurd rfl h
  member _ _ h := absurd rfl h

/-! ## Accepting -/

/-- The pre-check answers whether somebody can join by the token; it never fails, and changes
nothing. -/
theorem invite_is_usable_alone (hash : TokenHash) (tx : Transaction) (db : Database) : ∃ usable,
    (Request.mk (.invite_is_usable hash) tx).alone db = (.ok (.invite_is_usable (.ok usable)), db)
      ∧ (usable = true ↔ db.invited hash tx.now) := by
  obtain ⟨usable, t, heq, rfl, husable⟩ | ⟨e, -, he⟩ :=
    alone_of_solo (q := ⟨.invite_is_usable hash, tx⟩) rfl solo_invite_is_usable
  · exact ⟨usable, heq, husable⟩
  · exact he.elim

/-- **Acceptance agrees with its pre-check and is all or nothing.** The pre-check always answers,
and which errors an acceptance can end with is read off its answer; what is not refused joins, and
whatever is refused leaves the state as it was, the use that was already counted included. -/
theorem accept_invite_exact (hdb : Enforced db) (hnew : db.actor a = none)
    (hemail : storable email = true) (hhash : storable password_hash = true)
    (hname : storable name = true) (xid : ℕ) :
    let accept := (Request.mk (.accept_invite hash email password_hash name a) tx).alone db
    let usable := ((Request.mk (.invite_is_usable hash) ⟨tx.now, xid⟩).alone db).1
    (∃ b, (Request.mk (.invite_is_usable hash) ⟨tx.now, xid⟩).alone db
        = (.ok (.invite_is_usable (.ok b)), db))
      ∧ (accept.1 = .error (.accept_invite (.error .inviteUnusable)) ↔
        usable = .ok (.invite_is_usable (.ok false)))
      ∧ (accept.1 = .error (.accept_invite (.error .emailTaken)) ↔
        usable = .ok (.invite_is_usable (.ok true)) ∧ db.emailUsed email)
      ∧ (usable = .ok (.invite_is_usable (.ok true)) → ¬ db.emailUsed email →
        ∃ i r, db.invite i = some r ∧ r.open hash tx.now
          ∧ accept = (.ok (.accept_invite (.ok (a, r.organization_id))),
            view (acceptance tx i r a email password_hash name) db))
      ∧ (∀ e, accept.1 = .error e → accept.2 = db) := by
  intro accept usable
  obtain ⟨b, hcheck, hb⟩ := invite_is_usable_alone hash ⟨tx.now, xid⟩ db
  have husable : usable = .ok (.invite_is_usable (.ok b)) := congrArg Prod.fst hcheck
  -- Without an actor there are neither a user nor memberships of the new person.
  have huser : db.user a = none := by
    by_contra h
    exact hdb.user a h hnew
  have hmember : ∀ o, db.member o a = none := by
    intro o
    by_contra h
    exact hdb.member o a h hnew
  rw [husable]
  refine ⟨⟨b, hcheck⟩, ?_⟩
  obtain ⟨reply, t, heq, hfree, i, r, hr, hopen, rfl, rfl⟩ | ⟨e, heq, herror⟩ :=
    alone_of_solo (q := ⟨.accept_invite hash email password_hash name a, tx⟩) rfl
      (solo_accept_invite hdb.toInviteConstraints hnew huser hmember hemail
        hhash hname)
  · -- Accepted.
    have hyes : b = true := hb.mpr ⟨i, r, hr, hopen⟩
    have haccept : accept = (.ok (.accept_invite (.ok (a, r.organization_id))), _) := heq
    rw [haccept, hyes]
    refine ⟨⟨(by rintro ⟨⟩), fun h => by cases h⟩,
      ⟨(by rintro ⟨⟩), fun h => absurd h.2 hfree⟩, ?_, (by rintro _ ⟨⟩)⟩
    exact fun _ _ => ⟨i, r, hr, hopen, rfl⟩
  · -- Refused, for the invite or for the email.
    have haccept : accept = (.error (.accept_invite (.error e)), db) := heq
    rw [haccept]
    obtain ⟨rfl, hno⟩ | ⟨rfl, hinvited, hused⟩ := herror
    · have hfalse : b = false := Bool.eq_false_iff.mpr fun h => hno (hb.mp h)
      rw [hfalse]
      exact ⟨⟨fun _ => rfl, fun _ => rfl⟩, ⟨(by rintro ⟨⟩), fun h => by cases h.1⟩,
        (by rintro ⟨⟩), fun _ _ => rfl⟩
    · have htrue : b = true := hb.mpr hinvited
      rw [htrue]
      exact ⟨⟨(by rintro ⟨⟩), (by rintro ⟨⟩)⟩, ⟨fun _ => ⟨rfl, hused⟩, fun _ => rfl⟩,
        fun _ h => absurd hused h, fun _ _ => rfl⟩

/-- An organization with one invite. -/
def oneInvite : List Write :=
  [.put (.organization ⟨10⟩) (some ⟨['o'], ['o']⟩),
    .put (.invite ⟨30⟩) (some ⟨⟨10⟩, .organization, first_key, 100, 1, 0, none, ⟨1⟩, 0⟩)]

/-- The only invite there is. -/
theorem oneInvite_invite {i : InviteId} {r : InviteRow}
    (h : (view oneInvite .empty).invite i = some r) :
    i = ⟨30⟩ ∧ r = ⟨⟨10⟩, .organization, first_key, 100, 1, 0, none, ⟨1⟩, 0⟩ := by
  by_cases hi : i = ⟨30⟩
  · subst hi
    exact ⟨rfl, (Option.some.inj h).symm⟩
  · have hnone : (view oneInvite .empty).rows.get (.invite i) = none :=
      (view_get_of_untouched (by simp [oneInvite, hi])).trans rfl
    cases hnone.symm.trans h

/-- A person joins by the invite, and nobody can use it again. -/
theorem accept_invite_exact_once :
    ((Request.mk (.accept_invite first_key ['b'] [] ['B'] ⟨2⟩) ⟨0, 2⟩).alone
      (view oneInvite .empty)).1 = .ok (.accept_invite (.ok (⟨2⟩, ⟨10⟩))) := by
  have hdb : Enforced (view oneInvite .empty) := by
    refine ⟨⟨?_, ?_, ?_⟩, ?_, ?_⟩
    · intro i j r r' hr hr' _
      exact (oneInvite_invite hr).1.trans (oneInvite_invite hr').1.symm
    · intro i r hr
      rw [(oneInvite_invite hr).2]
    · intro i r hr
      rw [(oneInvite_invite hr).2]
      rintro ⟨⟩
    · intro b hb
      exact absurd ((view_get_of_untouched (k := .user b) (by simp [oneInvite])).trans rfl) hb
    · intro o b hb
      exact absurd ((view_get_of_untouched (k := .member o b) (by simp [oneInvite])).trans rfl) hb
  have hfree : ¬ (view oneInvite .empty).emailUsed ['b'] := by
    rintro ⟨b, r, hr, -⟩
    cases ((view_get_of_untouched (k := .user b) (by simp [oneInvite])).trans rfl).symm.trans hr
  obtain ⟨-, -, -, haccepted, -⟩ := @accept_invite_exact (view oneInvite .empty) ⟨0, 2⟩ first_key
    ['b'] [] ['B'] ⟨2⟩ hdb rfl rfl rfl rfl 1
  obtain ⟨usable, hcheck, husable⟩ := invite_is_usable_alone first_key ⟨0, 1⟩ (view oneInvite .empty)
  have hyes : usable = true :=
    husable.mpr ⟨⟨30⟩, _, rfl, rfl, rfl, by decide, rfl, by decide⟩
  subst hyes
  obtain ⟨i, r, hr, -, heq⟩ := haccepted (congrArg Prod.fst hcheck) hfree
  rw [heq, (oneInvite_invite hr).2]

end Fukulow
