/-
`operations/channels.rs` meets its guarantees.

As in `Fukulow.Guaranteed.Teams`, the organization's lock keeps the team or the channel
that was read; a new listing in addition rests on the share lock that `lock_actor` took on
the person listed, who therefore has not departed at the commit.
-/
import Fukulow.Guaranteed.Teams
import Fukulow.Operations.Channels

set_option autoImplicit false

namespace Fukulow

open Txn (LockMode)

variable {allowed : Call → Bool} {guarded : Bool} {V : World → Prop}
variable {L : Held} {w : World} {tx : Transaction} {p a : ActorId} {o : OrganizationId}
variable {c : ChannelId}

/-- **`create_channel`.** Both scopes run the same three statements; a team's channel reads its
team first, and the organization's lock keeps what that read has shown. So the proof is one walk,
with the read as a hypothesis about the world it starts in. -/
theorem wp_create_channel {q : Call} {scope : ChannelScope} {name : Text} :
    (rules allowed guarded V).wp
      (Ends allowed guarded V q fun _ ws db => ChannelCreated ws db p o scope name c) anyError
      (create_channel tx p o scope name c) L [] w := by
  unfold create_channel
  refine wp_opening ?_
  intro L₁ w₁ _ hv₁ horg _
  -- A team channel's team was read at the world `w₂`.
  suffices hrest : ∀ w₂, (rules allowed guarded V).Later L₁ w₁ w₂ → V w₂ →
      (∀ t, scope = .team t → ∃ r, w₂.store.team t = some r ∧ r.organization_id = o) →
      (rules allowed guarded V).wp
        (Ends allowed guarded V q fun _ ws db => ChannelCreated ws db p o scope name c) anyError
        (do
          (insert (.channel c) ⟨o, scope, name, 0⟩ "channels_pkey"
            (fun db =>
              if !storable name then .error .invalidText
              else if !channels_insert (begin tx (.actor p)) db ⟨o, scope, name, 0⟩ then
                .error .insufficientPrivilege
              else admit_if (1 ≤ name.length && name.length ≤ 80) (.check "channels_name_check"))
            [channel_name_index o scope name] (channel_references o scope)).mapError fun e =>
              if e.constraint "channels_team_name_key"
                || e.constraint "channels_organization_name_key"
              then CreateChannelError.nameTaken else .database e
          ((Event.channel_created c scope).write (begin tx (.actor p)) o p : Sql SqlError Unit)
          return c : Sql CreateChannelError ChannelId) L₁ [] w₂ by
    cases scope with
    | organization => exact hrest w₁ .refl hv₁ (by rintro _ ⟨⟩)
    | team t =>
        dsimp only
        rw [Txn.Rules.wp_bind, wp_lift, select_team, wp_select]
        intro w₂ hl₂ hv₂
        rw [Txn.Rules.wp_bind]
        refine wp_ensure (fun hteam => ?_) fun _ => trivial
        refine hrest w₂ hl₂ hv₂ ?_
        rintro _ ⟨⟩
        exact team_read hteam
  intro w₂ hl₂ hv₂ hteam
  rw [Txn.Rules.wp_bind, Txn.Rules.wp_mapError]
  refine wp_insert (fun _ _ _ => trivial) (by simp) ?_
  intro w₃ L₄ w₄ hl₃ hv₃ hL₄ hl₄ hv₄ _ hins
  rw [Txn.Rules.wp_bind, wp_lift]
  refine wp_write_inserted (fun _ _ _ => trivial) rfl (by simp) (hL₄ horg) rfl hins
    (fun _ h => by cases h) ?_
  intro v hl _ hnew hchange
  refine ⟨hnew, ?_, hchange⟩
  intro t ht
  obtain ⟨r, hr, hro⟩ := hteam t ht
  have hlater : (rules allowed guarded V).Later L₁ w₂ v := hl₃.trans (hl₄.trans (hl.mono hL₄))
  exact ⟨r, (frozen_tenant (k := .team t) (x := r) horg hlater (congrArg some hro)).mpr hr, hro⟩

/-- **`add_channel_member`.** The channel that was read stays for the organization's lock, and the
target has not departed for the share lock of `lock_actor`. That the target belongs to the
organization is nowhere asked. -/
theorem wp_add_channel_member {q : Call} :
    (rules allowed guarded V).wp
      (Ends allowed guarded V q fun _ ws db => ChannelMemberAdded ws db p o c a) anyError
      (add_channel_member tx p o c a) L [] w := by
  unfold add_channel_member
  refine wp_opening ?_
  intro L₁ w₁ departed hv₁ horg hdeparted
  rw [Txn.Rules.wp_bind, wp_lift, wp_select]
  intro w₂ hl₂ hv₂
  split
  case h_1 => trivial
  case h_2 r hread =>
    obtain ⟨hr₂, hboth⟩ := Option.filter_eq_some_iff.mp hread
    simp only [Bool.and_eq_true, decide_eq_true_eq] at hboth
    obtain ⟨hro, -⟩ := hboth
    have hkeep : ∀ v, (rules allowed guarded V).Later L₁ w₂ v → v.store.channel c = some r :=
      fun v hl => (frozen_tenant (k := .channel c) (x := r) horg hl (congrArg some hro)).mpr hr₂
    split
    case isTrue => trivial
    case isFalse hscope =>
      split
      case h_1 => trivial
      case h_2 => trivial
      case h_3 =>
        obtain ⟨hactor, x, hx, hdel⟩ := hdeparted false rfl
        rw [Txn.Rules.wp_bind, wp_lift]
        refine wp_insert_from (fun _ _ _ => trivial) (by simp) ?_ ?_ ?_
        · -- The channel was not shown to the statement, so the performer was not active; the
          -- record is refused.
          intro w₃ hl₃ hv₃ hsource
          rw [Txn.Rules.wp_bind]
          refine wp_ensure (fun _ => ?_) fun _ => trivial
          rw [wp_lift]
          refine wp_write_locked (fun _ _ _ => trivial) rfl (by simp) horg ?_
          intro L₄ w₄ _ hl₄ _ hp
          rw [frozen_active horg hl₄] at hp
          change ((w₃.store.channel c).any fun r => r.organization_id = o
            && channels_select (begin tx (.actor p)) w₃.store r) = false at hsource
          rw [hkeep w₃ hl₃] at hsource
          simp [hro, channels_select, begin, set_context, fukulow_active_organizations, hp]
            at hsource
        · intro L₃ w₃ _ _ _
          trivial
        · intro w₃ L₄ w₄ hl₃ hv₃ hL₄ hl₄ hv₄ _ hins
          rw [Txn.Rules.wp_bind]
          refine wp_ensure (fun _ => ?_) fun _ => trivial
          rw [wp_lift]
          refine wp_write_inserted (a := ()) (fun _ _ _ => trivial) rfl (by simp) (hL₄ horg) rfl
            hins ?_ ?_
          · intro b hb
            cases hb
            exact ⟨_, hL₄ hactor⟩
          · intro v hl _ hnew hchange
            have hlater : (rules allowed guarded V).Later L₁ w₂ v :=
              hl₃.trans (hl₄.trans (hl.mono hL₄))
            refine ⟨hnew, ⟨r, hkeep v hlater, hro, hscope⟩, ⟨x, ?_, ?_⟩, hchange⟩
            · exact (frozen_row (k := .actor a) hactor (by decide) (hl₂.trans hlater)).trans hx
            · simpa using hdel

end Fukulow
