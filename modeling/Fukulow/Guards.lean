/-
What an operation has decided, the database lets through.

Every operation checks its own conditions first and then writes; row security, the triggers
and the constraints decide once more, each on the state its own statement sees. Alone, on
any state that calls one at a time lead to, the two decisions agree: none of the calls below
answers with a database error. The one exception is a member who suspends itself. Its last
statement, the audit record, is written by someone who is no longer active by then.
-/
import Fukulow.Acceptance
import Fukulow.Privilege
import Fukulow.Serial.Departure
import Fukulow.Serial.Membership
import Fukulow.Serial.Sessions
import Fukulow.Serial.Teams

set_option autoImplicit false

namespace Fukulow

/-- Is it the error for whatever the database refused? -/
def Reply.is_database : Reply → Bool
  | .create_person (.error (.database _)) | .create_organization (.error (.database _))
  | .change_member_role (.error (.database _)) | .suspend_member (.error (.database _))
  | .reactivate_member (.error (.database _)) | .leave_service (.error (.database _))
  | .create_team (.error (.database _)) | .add_team_member (.error (.database _))
  | .change_team_member_role (.error (.database _)) | .remove_team_member (.error (.database _))
  | .create_channel (.error (.database _)) | .add_channel_member (.error (.database _))
  | .post_message (.error (.database _)) | .messages_before (.error (.database _))
  | .messages_after (.error (.database _)) | .create_invite (.error (.database _))
  | .revoke_invite (.error (.database _)) | .invite_is_usable (.error (.database _))
  | .accept_invite (.error (.database _)) | .sign_in (.error (.database _))
  | .resolve_session (.error (.database _)) | .revoke_session (.error (.database _))
  | .me (.error (.database _)) => true
  | _ => false

/-- Does the call, alone on `db`, answer with the error for database errors? -/
def Request.refused (q : Request) (db : Database) : Bool :=
  match (q.alone db).1 with
  | .ok _ => false
  | .error reply => reply.is_database

/-- The calls in question, with arguments as their callers give them: texts that PostgreSQL can
store, the ids and tokens that are generated new, and a positive number of uses. -/
def Call.fits (db : Database) : Call → Prop
  | .create_organization _ name slug o =>
      storable name = true ∧ storable slug = true ∧ db.organization o = none
  | .create_invite _ _ token _ max_uses i => 0 < max_uses ∧ db.invite i = none
      ∧ ∀ t hash, token = some (t, hash) → db.inviteToken hash = false
  | .accept_invite _ email password_hash name a => storable email = true
      ∧ storable password_hash = true ∧ storable name = true ∧ db.actor a = none
  | .sign_in email _ token _ i => storable email = true ∧ db.session i = none
      ∧ ∀ t hash, token = some (t, hash) → sessions_with_token db hash = []
  | .change_member_role .. | .suspend_member .. | .reactivate_member .. | .add_team_member ..
  | .change_team_member_role .. | .remove_team_member .. | .add_channel_member ..
  | .revoke_invite .. | .revoke_session .. | .leave_service .. => True
  | _ => False

/-- A member who suspends itself, where the owner rule lets it. -/
def Call.suspends_itself (db : Database) : Call → Prop
  | .suspend_member p o a => a = p ∧ db.active o p = true
      ∧ (db.activeOwner o p = true → db.ownedWithout o p)
  | _ => False

/-- The two decisions agree on this call, and an active member's suspension of an active
member, unless it is the last active owner, is made and recorded. -/
structure Agrees (db : Database) (q : Request) : Prop where
  answered : q.refused db = false
  suspended : ∀ p o a, q.call = .suspend_member p o a → db.active o p = true →
    db.active o a = true → (db.activeOwner o a = true → db.ownedWithout o a) →
    ∃ r, db.member o a = some r ∧ q.alone db = (.ok (.suspend_member (.ok ())),
      db.member_changed p o a { r with status := .suspended } (.member_suspended a))

variable {db : Database} {q : Request}

/-! ## One call -/

/-- An operation whose errors are none of the database's: alone it ends as its rule says, and no
error the rule allows is reported as a database error. -/
theorem not_refused {ε α : Type} {p : Sql ε α} {g : Except ε α → Reply} {Q : α → Database → Prop}
    {F : ε → Prop} (hbody : q.body = p.answer g) (h : p.Solo Write.apply db Q F db)
    (hF : ∀ e, F e → (g (.error e)).is_database = false) : q.refused db = false := by
  rw [Request.refused]
  obtain ⟨a, t, heq, -⟩ | ⟨e, heq, he⟩ := alone_of_solo hbody h
  · rw [heq]
  · rw [heq]
    exact hF e he

/-- The states of runs have the links that a departure relies on. -/
theorem Consistent.linked (hc : Consistent db) (href : References db) : Linked db where
  toReferences := href
  membership := hc.team
  session := hc.session

/-- `suspend_member` agrees exactly if nobody suspends itself. For anyone else the performer is
still active when the audit record is written; a performer who is the target is not, and row
security refuses the record. -/
theorem suspend_member_agrees (href : References db) {p a : ActorId} {o : OrganizationId}
    {tx : Transaction} : Agrees db ⟨.suspend_member p o a, tx⟩ ↔
      ¬ (Call.suspend_member p o a).suspends_itself db := by
  have hrun := alone_of_solo (q := ⟨.suspend_member p o a, tx⟩) rfl
    (solo_suspend_member href)
  constructor
  · -- Such a suspension would have to be made, and its success says that the two are different.
    rintro h ⟨rfl, hp, hguard⟩
    obtain ⟨r, hr, hdone⟩ := h.suspended a o a rfl hp hp hguard
    obtain ⟨u, t, heq, -, hne, -⟩ | ⟨e, heq, -⟩ := hrun
    · exact hne rfl
    · cases hdone.symm.trans heq
  · intro hno
    obtain ⟨u, t, heq, hp, hne, r, hr, hstatus, hguard, rfl⟩ | ⟨e, heq, herror⟩ := hrun
    · refine ⟨by rw [Request.refused, heq], ?_⟩
      rintro p' o' a' hq - - -
      cases hq
      exact ⟨r, hr, heq⟩
    · obtain ⟨rfl, hnone⟩ | ⟨rfl, -, hactive⟩ | ⟨rfl, -, howner, hlast⟩ | ⟨-, rfl, hp, hguard⟩ :=
        herror
      · refine ⟨by rw [Request.refused, heq]; rfl, ?_⟩
        rintro p' o' a' hq hp ha -
        cases hq
        obtain ⟨r, hr, -⟩ := Database.active_iff.mp ha
        cases hr.symm.trans (hnone hp)
      · refine ⟨by rw [Request.refused, heq]; rfl, ?_⟩
        rintro p' o' a' hq - ha -
        cases hq
        cases ha.symm.trans hactive
      · refine ⟨by rw [Request.refused, heq]; rfl, ?_⟩
        rintro p' o' a' hq - - hguard
        cases hq
        exact absurd (hguard howner) hlast
      · exact absurd ⟨rfl, hp, hguard⟩ hno

/-- The other calls are never refused, each by the rule for it alone: what its own checks let
through, the policies, the triggers and the constraints let through as well. -/
theorem not_refused_of_fits (hc : Consistent db) (href : References db) (hdb : Enforced db)
    (hfits : q.call.fits db) (hother : ∀ p o a, q.call ≠ .suspend_member p o a) :
    q.refused db = false := by
  obtain ⟨c, tx⟩ := q
  cases c with
  | create_organization creator name slug o =>
      obtain ⟨hname, hslug, hnew⟩ := hfits
      refine not_refused rfl (solo_create_organization href hnew hname hslug) ?_
      rintro e (rfl | rfl | rfl | rfl) <;> rfl
  | change_member_role p o a role =>
      refine not_refused rfl (solo_change_member_role href) ?_
      rintro e (⟨rfl, -⟩ | ⟨rfl, -⟩) <;> rfl
  | suspend_member p o a => exact absurd rfl (hother p o a)
  | reactivate_member p o a =>
      refine not_refused rfl (solo_reactivate_member href) ?_
      rintro e (⟨rfl, -⟩ | ⟨rfl, -⟩ | ⟨rfl, -⟩) <;> rfl
  | leave_service a =>
      refine not_refused rfl (solo_leave_service (hc.linked href)) ?_
      rintro e (⟨rfl, -⟩ | ⟨o, rfl, -⟩) <;> rfl
  | add_team_member p o team a role =>
      refine not_refused rfl (solo_add_team_member href) ?_
      rintro e (rfl | rfl | rfl | rfl) <;> rfl
  | change_team_member_role p o team a role =>
      refine not_refused rfl (solo_change_team_member_role href) ?_
      rintro e rfl
      rfl
  | remove_team_member p o team a =>
      refine not_refused rfl (solo_remove_team_member href) ?_
      rintro e rfl
      rfl
  | add_channel_member p o channel a =>
      refine not_refused rfl (solo_add_channel_member href) ?_
      rintro e (rfl | rfl | rfl | rfl) <;> rfl
  | create_invite p o token expires max_uses i =>
      obtain ⟨hmax, hnew, hfresh⟩ := hfits
      refine not_refused rfl (solo_create_invite href) ?_
      rintro e (⟨rfl, -⟩ | ⟨rfl, -⟩ | ⟨rfl, -⟩ | ⟨-, hle | hold | ⟨t, hash, htoken, htaken⟩⟩)
      · rfl
      · rfl
      · rfl
      -- The three refusals of the database are what the arguments exclude.
      · exact absurd hmax (not_lt.mpr hle)
      · exact absurd hnew hold
      · cases htaken.symm.trans (hfresh t hash htoken)
  | revoke_invite p o i =>
      refine not_refused rfl (solo_revoke_invite href) ?_
      rintro e (⟨rfl, -⟩ | ⟨rfl, -⟩ | ⟨rfl, -⟩) <;> rfl
  | accept_invite hash email password_hash name a =>
      obtain ⟨hemail, hhash, hname, hnew⟩ := hfits
      have huser : db.user a = none := by
        by_contra h
        exact hdb.user a h hnew
      have hmember : ∀ o, db.member o a = none := by
        intro o
        by_contra h
        exact hdb.member o a h hnew
      refine not_refused rfl (solo_accept_invite hdb.toInviteConstraints hnew huser hmember hemail
        hhash hname) ?_
      rintro e (⟨rfl, -⟩ | ⟨rfl, -⟩) <;> rfl
  | sign_in email verify token expires i =>
      obtain ⟨hemail, hnew, hfresh⟩ := hfits
      refine not_refused rfl (solo_sign_in hemail hnew hfresh) ?_
      rintro e (rfl | rfl) <;> rfl
  | revoke_session a hash =>
      refine not_refused (F := fun e => e = .noSession) rfl
        (solo_revoke_session (Q := fun _ _ => True) |>.mpr ?_) ?_
      · split <;> trivial
      · rintro e rfl
        rfl
  | _ => exact hfits.elim

/-! ## All states reached one call at a time -/

/-- **Guards and database agree**, on every state that calls one at a time lead to, unless a member
suspends itself; and where one does, they do not. -/
theorem guards_and_database_agree (qs : List Request)
    (hfits : q.call.fits (served qs Database.empty)) :
    Agrees (served qs Database.empty) q ↔
      ¬ q.call.suspends_itself (served qs Database.empty) := by
  have hc : Consistent (served qs Database.empty) := served_consistent Consistent.empty
  have href : References (served qs Database.empty) :=
    served_references Consistent.empty References.empty
  by_cases hsuspend : ∃ p o a, q.call = .suspend_member p o a
  · obtain ⟨c, tx⟩ := q
    obtain ⟨p, o, a, rfl⟩ := hsuspend
    exact suspend_member_agrees href
  · simp only [not_exists] at hsuspend
    have hdb : Enforced (served qs Database.empty) :=
      served_enforced Consistent.empty References.empty Enforced.empty
    refine ⟨fun _ => ?_, fun _ => ⟨not_refused_of_fits hc href hdb hfits hsuspend, ?_⟩⟩
    · intro hself
      obtain ⟨c, tx⟩ := q
      cases c with
      | suspend_member p o a => exact hsuspend p o a rfl
      | _ => exact hself
    · exact fun p o a hq => absurd hq (hsuspend p o a)

/-- An owner suspends a plain member, and the change is made and recorded. -/
theorem guards_and_database_agree_member :
    ∃ r, (served plainMember Database.empty).member ⟨10⟩ ⟨3⟩ = some r
      ∧ (Request.mk (.suspend_member ⟨1⟩ ⟨10⟩ ⟨3⟩) ⟨0, 6⟩).alone (served plainMember Database.empty)
        = (.ok (.suspend_member (.ok ())), (served plainMember Database.empty).member_changed ⟨1⟩
          ⟨10⟩ ⟨3⟩ { r with status := .suspended } (.member_suspended ⟨3⟩)) := by
  have hagrees := (guards_and_database_agree (q := ⟨.suspend_member ⟨1⟩ ⟨10⟩ ⟨3⟩, ⟨0, 6⟩⟩)
    plainMember trivial).mpr fun h => absurd h.1 (by decide)
  refine hagrees.suspended ⟨1⟩ ⟨10⟩ ⟨3⟩ rfl (by decide +kernel) (by decide +kernel) fun h => ?_
  have hplain : (served plainMember Database.empty).activeOwner ⟨10⟩ ⟨3⟩ = false := by
    decide +kernel
  cases h.symm.trans hplain

/-- **A plain member suspends itself and gets a database error.** No rule of the operation is
against it, and the member is no owner. -/
theorem self_suspension_refused :
    (served plainMember Database.empty).active ⟨10⟩ ⟨3⟩ = true
      ∧ (served plainMember Database.empty).activeOwner ⟨10⟩ ⟨3⟩ = false
      ∧ (Request.mk (.suspend_member ⟨3⟩ ⟨10⟩ ⟨3⟩) ⟨0, 6⟩).refused
        (served plainMember Database.empty) = true := by
  refine ⟨?_, ?_, ?_⟩ <;> decide +kernel

end Fukulow
