/-
`operations/messages.rs` meets its guarantees.

A post locks its channel's row by the increment and its message id by the insert, and
holds both to the commit: the number it took is still the next one, and the id still free.
A repeated id gives both up and looks the stored message up in a second transaction;
stored messages never change, so what it finds is still stored when it answers.
-/
import Fukulow.Guaranteed.Basics

set_option autoImplicit false

namespace Fukulow

open Txn (LockMode)

variable {allowed : Call → Bool} {guarded : Bool} {V : World → Prop}
variable {L : Held} {w : World} {tx : Transaction}

/-- The promise about an `IdConflict`, at the error: there was a committed state in which the id
was taken by another message, or was not to be seen. It is the only error that promises anything,
since a client decides by it whether to send again. -/
def ConflictPromise (allowed : Call → Bool) (guarded : Bool) (V : World → Prop)
    (o : OrganizationId) (c : ChannelId) (sender : ActorId) (id : MessageId) (L : Held)
    (e : PostMessageError) (w : World) : Prop :=
  e = .idConflict → (rules allowed guarded V).Hence L (ConflictSeen V o c sender id) w

/-- A stored message that converts keeps its number: `try_from` checks it and changes nothing. -/
theorem try_from_ok {id : MessageId} {r : MessageRow} {m : Message}
    (h : Message.try_from id r = .ok m) :
    m = r.message id := by
  unfold Message.try_from ChannelSeq.new at h
  split at h
  case h_1 => cases h
  case h_2 seq hseq =>
    split at hseq
    case isFalse => cases hseq
    case isTrue =>
      cases hseq
      cases h
      simp [MessageRow.message]

/-- **`post_message`.** The increment locks the channel's row and the insert the message's id, both
to the commit, so the number is the next one there and the id is free. A repeated id restarts the
transaction, which gives both up; what the second one then finds is a stored message, and those
never change. -/
theorem wp_post_message {q : Call} {o : OrganizationId} {c : ChannelId} {sender : ActorId}
    {id : MessageId} {body : Text} :
    (rules allowed guarded V).wp
      (Ends allowed guarded V q fun reply ws db => MessagePosted ws db o c sender id body
        (.post_message (.ok reply)))
      (ConflictPromise allowed guarded V o c sender id)
      (post_message tx o c sender id body) L [] w := by
  unfold post_message
  split
  case isTrue => exact fun h => by cases h
  case isFalse =>
    rw [Txn.Rules.wp_bind, wp_lift]
    refine wp_update (fun _ _ _ h => by cases h) (by simp) ?_ ?_
    · intro _ L₁ w₁ _ _ _ _ _ _ h
      cases h
    · intro w₁ L₂ w₂ old new hl₁ hv₁ hL₂ hl₂ hv₂ hchannel hold hmatch hset
      have hro : old.organization_id = o := by simpa using hmatch
      split at hset
      case isTrue => cases hset
      case isFalse =>
        split at hset
        case isFalse => cases hset
        case isTrue =>
          cases hset
          dsimp only
          rw [Txn.Rules.wp_bind, wp_lift]
          refine wp_insert_or_nothing (fun _ _ _ h => by cases h) (by simp) ?_ ?_
          · -- The id is taken: a second transaction looks the stored message up.
            intro L₃ w₃ hL₃ hl₃ hv₃ hid htaken
            obtain ⟨r, hr⟩ := Option.ne_none_iff_exists'.mp htaken
            change (rules allowed guarded V).wp _ _ _ [] [] w₃
            rw [Txn.Rules.wp_bind, wp_lift, wp_select]
            intro w₄ hl₄ hv₄
            have hr₄ : w₄.store.message id = some r := fixed_row (k := .message id) rfl rfl hr hl₄
            split
            case h_1 hmiss =>
              intro _ v hl _
              refine ⟨w₄, hv₄, hl.states, r, hr₄, ?_⟩
              rintro ⟨rfl, rfl, rfl⟩
              change (w₄.store.message id).filter _ = none at hmiss
              rw [hr₄] at hmiss
              simpa [Option.filter, messages_select, begin, set_context,
                fukulow_active_organizations] using hmiss
            case h_2 row hfound =>
              obtain ⟨hrow, hmatch⟩ := Option.filter_eq_some_iff.mp hfound
              cases hr₄.symm.trans hrow
              simp only [Bool.and_eq_true, decide_eq_true_eq] at hmatch
              obtain ⟨⟨⟨hro', hrc⟩, hrs⟩, -⟩ := hmatch
              rw [Txn.Rules.wp_bind]
              unfold lift_message
              split
              case h_1 => exact fun h => by cases h
              case h_2 m hm =>
                intro v hl _
                refine ⟨Disciplined.nil _ _ _, r, ⟨hro', hrc, hrs⟩, .inr ⟨?_, ?_, rfl⟩⟩
                · rw [try_from_ok hm]
                · exact fixed_row (k := .message id) rfl rfl hr₄ hl
          · -- The id is new: the message goes in under the number just taken.
            intro w₃ L₄ w₄ hl₃ hv₃ hL₄ hl₄ hv₄ _ hins
            rw [if_pos rfl, Txn.Rules.wp_bind]
            unfold lift_message
            split
            case h_1 => exact fun h => by cases h
            case h_2 m hm =>
              intro v hl _
              have hlater : (rules allowed guarded V).Later L₂ w₂ v :=
                hl₃.trans (hl₄.trans (hl.mono hL₄))
              -- The counter is still what it was before the increment.
              have hold_v : v.store.channel c = some old :=
                (frozen_row (k := .channel c) hchannel (by decide) hlater).trans hold
              have hnew : v.store.message id = none := hins.new_later (List.Subset.refl _) hl
              have horg : ∀ o', some o = some o' → L₄.any (.organization o') := by
                rintro _ ⟨⟩
                exact ⟨_, (hins.references ⟨.organization o, fun _ => true⟩ (by simp)).1⟩
              refine ⟨.cons_put ?_ (.cons_put ?_ (.nil q L₄ v.store)),
                ⟨o, c, old.next_message_seq + 1, sender, body, tx.now⟩, ⟨rfl, rfl, rfl⟩,
                .inl ⟨?_, rfl, old, hold_v, hro, rfl, hnew, rfl⟩⟩
              · exact .update (m := .noKeyUpdate) rfl (by decide) (hL₄ hchannel) hold_v
                  (fun o' ho' => horg o' (hro ▸ ho')) ⟨rfl, rfl⟩ (by rintro _ _ ⟨⟩)
              · refine .insert hins.row hnew horg ?_
                rintro _ ⟨⟩
                exact ⟨_, (hins.references ⟨.actor sender, fun _ => true⟩ (by simp)).1⟩
              · rw [try_from_ok hm]
                rfl

/-- **`messages_before`** reads twice and writes nothing, whatever it finds. -/
theorem wp_messages_before {q : Call} {actor : ActorId} {o : OrganizationId} {c : ChannelId}
    {before : Option ChannelSeq} {limit : ℕ} :
    (rules allowed guarded V).wp (Ends allowed guarded V q fun _ ws _ => ws = []) anyError
      (messages_before tx actor o c before limit) L [] w := by
  unfold messages_before
  rw [Txn.Rules.wp_bind, wp_lift, channel_exists, wp_select]
  intro w₁ _ _
  split
  · trivial
  · rw [Txn.Rules.wp_bind, wp_lift, wp_select]
    intro w₂ _ _
    split
    · trivial
    · exact Ends.nothing fun _ _ _ => rfl

/-- **`messages_after`** reads twice and writes nothing, whatever it finds. -/
theorem wp_messages_after {q : Call} {actor : ActorId} {o : OrganizationId} {c : ChannelId}
    {after : ChannelSeq} {limit : ℕ} :
    (rules allowed guarded V).wp (Ends allowed guarded V q fun _ ws _ => ws = []) anyError
      (messages_after tx actor o c after limit) L [] w := by
  unfold messages_after
  rw [Txn.Rules.wp_bind, wp_lift, channel_exists, wp_select]
  intro w₁ _ _
  split
  · trivial
  · rw [Txn.Rules.wp_bind, wp_lift, wp_select]
    intro w₂ _ _
    split
    · trivial
    · exact Ends.nothing fun _ _ _ => rfl

end Fukulow
