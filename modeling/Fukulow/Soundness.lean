/-
Every call meets its guarantee, at every interleaving.

`bodies` collects the walks of `Fukulow.Guaranteed`: one line a call, which says that what
the walk shows at the end is what `CommitSpec` asks of that call. What is left of soundness
is that the guarantees keep the worlds valid, and that is a matter of committed states
alone.
-/
import Fukulow.Guaranteed.Channels
import Fukulow.Guaranteed.Departure
import Fukulow.Guaranteed.Invites
import Fukulow.Guaranteed.Messages
import Fukulow.Guaranteed.Sessions

set_option autoImplicit false

namespace Fukulow

variable {allowed : Call → Bool} {guarded : Bool} {V : World → Prop}
variable {L : Held} {w : World} {tx : Transaction} {c : Call}

/-- From the walk through an operation to its call: what the walk shows at the end is the guarantee
of the call, with the result turned into a reply. -/
theorem wp_call {ε α : Type} {p : Sql ε α} {g : Except ε α → Reply}
    {spec : α → List Write → Database → Prop} {F : Held → ε → World → Prop}
    (hc : allowed c = true)
    (hp : (rules allowed guarded V).wp (Ends allowed guarded V c spec) F p L [] w)
    (hspec : ∀ a ws db, spec a ws db → CommitSpec guarded ⟨c, tx⟩ ws (g (.ok a)) db)
    (hfail : ∀ L e w, F L e w → (rules allowed guarded V).Fails ⟨c, tx⟩ L (g (.error e)) w) :
    (rules allowed guarded V).wp ((rules allowed guarded V).Commits ⟨c, tx⟩)
      ((rules allowed guarded V).Fails ⟨c, tx⟩) (p.answer g) L [] w := by
  rw [Txn.Rules.wp_answer]
  refine Txn.Rules.wp_mono hp ?_ hfail
  intro L ws a w h w' hl hv
  exact ⟨(h w' hl hv).1, hspec a ws w'.store (h w' hl hv).2, hc⟩

/-- Any call but `post_message` fails without a promise: its errors leave the state alone, and
nobody relies on what they say. -/
theorem fails_silently {ε : Type} {reply : ε → Reply}
    (hc : ∀ o ch s i b, c ≠ .post_message o ch s i b) (L : Held) (e : ε) (w : World)
    (_ : anyError L e w) : (rules allowed guarded V).Fails ⟨c, tx⟩ L (reply e) w := by
  intro w' _ _
  cases c with
  | post_message o ch s i b => exact absurd rfl (hc o ch s i b)
  | _ => trivial

/-- **Every call meets its guarantee.** One line a call. A departure is the only one that asks
something of the worlds, so other rules leave `V` empty. -/
theorem bodies (q : Request) (hq : allowed q.call = true)
    (hV : ∀ a v, q.call = .leave_service a → V v → Leavable v.store) :
    (rules allowed guarded V).wp ((rules allowed guarded V).Commits q)
      ((rules allowed guarded V).Fails q) q.body L [] w := by
  obtain ⟨c, tx⟩ := q
  cases c with
  | create_person email hash name a =>
      exact wp_call hq wp_create_person_alone (fun _ _ _ h => h) (fails_silently (by simp))
  | create_organization creator name slug o =>
      exact wp_call hq wp_create_organization (fun _ _ _ h => h) (fails_silently (by simp))
  | change_member_role p o a role =>
      exact wp_call hq wp_change_member_role (fun _ _ _ h => h) (fails_silently (by simp))
  | suspend_member p o a =>
      exact wp_call hq wp_suspend_member (fun _ _ _ h => h) (fails_silently (by simp))
  | reactivate_member p o a =>
      exact wp_call hq wp_reactivate_member (fun _ _ _ h => h) (fails_silently (by simp))
  | leave_service a =>
      exact wp_call hq (wp_leave_service fun v => hV a v rfl) (fun _ _ _ h => h)
        (fails_silently (by simp))
  | create_team p o name t =>
      exact wp_call hq wp_create_team (fun _ _ _ h => h) (fails_silently (by simp))
  | add_team_member p o t a role =>
      exact wp_call hq wp_add_team_member (fun _ _ _ h => h) (fails_silently (by simp))
  | change_team_member_role p o t a role =>
      exact wp_call hq wp_change_team_member_role (fun _ _ _ h => h) (fails_silently (by simp))
  | remove_team_member p o t a =>
      exact wp_call hq wp_remove_team_member (fun _ _ _ h => h) (fails_silently (by simp))
  | create_channel p o scope name ch =>
      exact wp_call hq wp_create_channel (fun _ _ _ h => h) (fails_silently (by simp))
  | add_channel_member p o ch a =>
      exact wp_call hq wp_add_channel_member (fun _ _ _ h => h) (fails_silently (by simp))
  -- The only call that promises something when it fails.
  | post_message o ch sender id body =>
      refine wp_call hq wp_post_message (fun _ _ _ h => h) ?_
      intro L e w h w' hl hv heq
      cases heq
      exact h rfl w' hl hv
  | messages_before a o ch before limit =>
      exact wp_call hq wp_messages_before (fun _ _ _ h => h) (fails_silently (by simp))
  | messages_after a o ch after limit =>
      exact wp_call hq wp_messages_after (fun _ _ _ h => h) (fails_silently (by simp))
  | create_invite p o token expires n i =>
      exact wp_call hq wp_create_invite (fun _ _ _ h => h) (fails_silently (by simp))
  | revoke_invite p o i =>
      exact wp_call hq wp_revoke_invite (fun _ _ _ h => h) (fails_silently (by simp))
  | invite_is_usable hash =>
      exact wp_call hq wp_invite_is_usable (fun _ _ _ h => h) (fails_silently (by simp))
  | accept_invite hash email pw name a =>
      exact wp_call hq wp_accept_invite (fun _ _ _ h => h) (fails_silently (by simp))
  -- The rule for `sign_in` says more than its guarantee needs.
  | sign_in email verify token expires i =>
      refine wp_call hq wp_sign_in ?_ (fails_silently (by simp))
      rintro x ws db ⟨hash, htoken, h⟩
      exact ⟨x.2, hash, htoken, x.1, h.present, h.user, h.new, h.writes⟩
  | resolve_session hash =>
      exact wp_call hq wp_resolve_session (fun _ _ _ h => h) (fails_silently (by simp))
  | revoke_session a hash =>
      refine wp_call hq wp_revoke_session ?_ (fails_silently (by simp))
      rintro - ws db ⟨i, r, hr, -, -, rfl⟩
      exact ⟨i, r, _, hr, rfl⟩
  | me a => exact wp_call hq wp_me (fun _ _ _ h => h) (fails_silently (by simp))

end Fukulow
