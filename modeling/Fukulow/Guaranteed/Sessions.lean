/-
`operations/sessions.rs` meets its guarantees.

A session opens under the share lock on its actor, which keeps the actor from departing,
and its foreign key keeps the user it references from being deleted. Revoking a session
writes one row, and keeps whose it is.
-/
import Fukulow.Guaranteed.Basics

set_option autoImplicit false

namespace Fukulow

open Txn (LockMode)

variable {allowed : Call → Bool} {guarded : Bool} {V : World → Prop}
variable {L : Held} {w : World} {tx : Transaction}

/-- A session of `a` opens: somebody who has not departed and is a user, and a row that was not
there. -/
structure SessionOpened (ws : List Write) (db : Database) (a : ActorId) (token_hash : TokenHash)
    (expires_at : Instant) (id : SessionId) : Prop where
  present : db.present a
  user : db.user a ≠ none
  new : db.session id = none
  writes : ws = [.put (.session id) (some ⟨a, token_hash, expires_at, none⟩)]

/-- A session of `a` with this token is revoked, for the first time or again. Repeating it keeps
the time of the first revocation. -/
def RevokedBy (ws : List Write) (db : Database) (a : ActorId) (token_hash : TokenHash)
    (now : Instant) : Prop :=
  ∃ i r, db.session i = some r ∧ r.actor_id = a ∧ r.token_hash = token_hash
    ∧ ws = [.put (.session i) (some { r with revoked_at := some (r.revoked_at.getD now) })]

/-- **`sign_in`.** The actor is locked before anything is decided by it, so it is still there at
the commit. The user was read without a lock and may be gone by then, but for the insert's own
foreign key. -/
theorem wp_sign_in {T : Type} {c : Call} {email : Text} {verify : Text → Bool}
    {new_token : Unit → Option (T × TokenHash)} {expires_at : Instant} {id : SessionId} :
    (rules allowed guarded V).wp
      (Ends allowed guarded V c fun x ws db =>
        ∃ hash, new_token () = some (x.2, hash) ∧ SessionOpened ws db x.1 hash expires_at id) anyError
      (sign_in tx email verify new_token expires_at id) L [] w := by
  unfold sign_in
  split
  case isTrue => trivial
  case isFalse =>
    rw [Txn.Rules.wp_bind, wp_lift, wp_select]
    intro w₁ hl₁ hv₁
    dsimp only
    split
    case h_1 => trivial
    case h_2 actor _ _ =>
      rw [Txn.Rules.wp_bind, wp_lift]
      refine wp_lock_actor ?_
      intro L₂ w₂ departed hL₂ hl₂ hv₂ hdeparted
      split
      case isTrue => trivial
      case isFalse hpresent =>
        obtain ⟨hshare, r, hr, hdel⟩ := hdeparted false (not_not.mp hpresent)
        rw [Txn.Rules.wp_bind, wp_lift, wp_select]
        intro w₃ hl₃ hv₃
        split
        case isTrue => trivial
        case isFalse =>
          split
          case h_1 => trivial
          case h_2 token hash htoken =>
            rw [Txn.Rules.wp_bind, wp_lift]
            refine wp_insert (fun _ _ _ => trivial) (by simp) ?_
            intro w₄ L₅ w₅ hl₄ hv₄ hL₅ hl₅ hv₅ _ hins v hl _
            have hlater : (rules allowed guarded V).Later L₂ w₂ v :=
              hl₃.trans (hl₄.trans (hl₅.trans (hl.mono hL₅)))
            have hnew : v.store.session id = none := hins.new_later (List.Subset.refl _) hl
            obtain ⟨huser, huserthere⟩ := hins.references ⟨.user actor, fun _ => true⟩ (by simp)
            -- The foreign key's lock on the user keeps it until the commit.
            have hthere : v.store.user actor ≠ none := by
              rw [view_get_of_untouched (by simp)] at huserthere
              obtain ⟨u, hu⟩ := Option.ne_none_iff_exists'.mp huserthere
              obtain ⟨u', hu', -, -⟩ := persists (k := .user actor) (.inr ⟨_, huser⟩) hu hl
              simp [hu']
            refine ⟨.cons_put (.insert hins.row hnew (by rintro _ ⟨⟩) ?_) (.nil c L₅ v.store),
              hash, htoken, ⟨r, ?_, by simpa using hdel⟩, hthere, hnew, rfl⟩
            · rintro _ ⟨⟩
              exact ⟨_, hL₅ hshare⟩
            · exact (frozen_row (k := .actor actor) hshare (by decide) hlater).trans hr

/-- **`revoke_session`.** The update finds its row by the token and asks for the actor again on the
newest version, which it has locked; so whose session it is holds of the version that it changes.
-/
theorem wp_revoke_session {c : Call} {actor : ActorId} {hash : TokenHash} :
    (rules allowed guarded V).wp
      (Ends allowed guarded V c fun _ ws db => RevokedBy ws db actor hash tx.now) anyError
      (revoke_session tx actor hash) L [] w := by
  rw [revoke_session, Txn.Rules.wp_bind, wp_snapshot]
  intro w₁ hl₁ hv₁
  rw [view_nil]
  split
  case h_1 => trivial
  case h_2 i _ =>
    rw [Txn.Rules.wp_bind, wp_lift]
    refine wp_update_row (fun _ _ _ => trivial) hv₁ (by simp) ?_ ?_
    · intro L₂ w₂ _ _ _ _
      trivial
    · intro L₂ w₂ old new hL₂ hl₂ hv₂ hrow hold hmatches hset v hl _
      dsimp only at hset
      split at hset
      case isFalse => cases hset
      case isTrue =>
        cases hset
        -- The version that was updated is locked, so it is the one before the commit.
        have hold' : v.store.session i = some old :=
          (frozen_row (k := .session i) hrow (by decide) hl).trans hold
        refine ⟨.cons_put (.update (m := .noKeyUpdate) rfl (by decide) hrow hold' (by rintro _ ⟨⟩)
          ⟨rfl, rfl⟩ (by rintro _ _ ⟨⟩)) (.nil c L₂ v.store), i, old, hold',
          of_decide_eq_true (Bool.and_eq_true_iff.mp hmatches).1,
          of_decide_eq_true (Bool.and_eq_true_iff.mp hmatches).2, rfl⟩

/-! ## Calls that only read -/

/-- What every call that only reads promises: it writes nothing. -/
abbrev Reads {α : Type} : α → List Write → Database → Prop := fun _ ws _ => ws = []

/-- Nothing written, nothing to show: whatever was read before. -/
theorem Ends.reads {α : Type} {c : Call} {a : α} :
    Ends allowed guarded V c Reads L [] a w :=
  Ends.nothing fun _ _ _ => rfl

/-- **`resolve_session`** reads once, and either way writes nothing. -/
theorem wp_resolve_session {c : Call} {hash : TokenHash} :
    (rules allowed guarded V).wp (Ends allowed guarded V c Reads) anyError
      (resolve_session tx hash) L [] w := by
  unfold resolve_session
  rw [Txn.Rules.wp_bind, wp_lift, wp_select]
  intro w₁ _ _
  split
  · trivial
  · exact Ends.reads

/-- **`me`** reads once, and either way writes nothing. -/
theorem wp_me {c : Call} {actor : ActorId} :
    (rules allowed guarded V).wp (Ends allowed guarded V c Reads) anyError
      (me tx actor) L [] w := by
  unfold me
  rw [Txn.Rules.wp_bind, wp_lift, wp_select]
  intro w₁ _ _
  split
  · trivial
  · exact Ends.reads

end Fukulow
