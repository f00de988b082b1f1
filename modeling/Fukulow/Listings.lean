/-
Who is listed in a channel, in the runs in which nobody is added from outside.

A channel's listings are rows of their own, with no foreign key to the memberships of the
channel's organization; `add_channel_member` keeps outsiders out because `lock_actor` has
to see its target. What a performer sees is the union over all organizations it is active
in, so a performer in two of them sees the members of the second while it adds to a channel
of the first, and `outsider_listed` is a run in which it does. Where every target belongs
to the organization when its addition commits, every listing names a member: memberships
only change their status, and a channel keeps its organization.
-/
import Fukulow.References
import Fukulow.Txn.Runs

set_option autoImplicit false

namespace Fukulow

/-- Every listing names someone with a membership in the channel's organization. -/
def MembersListed (db : Database) : Prop :=
  ∀ c a m, db.channelMember c a = some m →
    ∃ r, db.channel c = some r ∧ (db.member r.organization_id a).isSome = true

variable {guarded : Bool} {q : Request} {ws : List Write} {reply : Reply} {db : Database}

/-! ## One commit -/

/-- A commit lists no outsider, where the target of an addition belongs to the organization.
Memberships stay when a person leaves, and a channel keeps its organization, so older listings keep
naming members. -/
theorem CommitSpec.keeps_listed (h : CommitSpec guarded q ws reply db) (hl : MembersListed db)
    (hq : ∀ p o c a, q.call = .add_channel_member p o c a → (db.member o a).isSome = true) :
    MembersListed (view ws db) := by
  have hkeep : ∀ c a r, db.channel c = some r → (db.member r.organization_id a).isSome = true →
      ∃ r', (view ws db).channel c = some r' ∧
        ((view ws db).member r'.organization_id a).isSome = true := by
    intro c a r hr hmember
    obtain ⟨r', hr', horg, -⟩ := h.channel_stays hr
    obtain ⟨m, hm⟩ := Option.isSome_iff_exists.mp hmember
    obtain ⟨m', hm'⟩ := h.member_stays hm
    exact ⟨r', hr', by rw [horg, hm']; rfl⟩
  intro c a m hm
  obtain hold | heffect := h.effect_or_old hm
  · obtain ⟨r, hr, hmember⟩ := hl c a m hold
    exact hkeep c a r hr hmember
  · generalize hx : some m = x at heffect
    cases heffect with
    | channel_member_added p _ _ o hcall _ hchannel _ =>
        obtain ⟨r, hr, rfl, -⟩ := hchannel
        exact hkeep c a r hr (hq p _ c a hcall)
    | departed => cases hx

/-- An addition whose target does not belong lists an outsider: nothing at the commit asks for the
membership. -/
theorem CommitSpec.lists_outsider (h : CommitSpec guarded q ws reply db) {p a : ActorId}
    {o : OrganizationId} {c : ChannelId} (hq : q.call = .add_channel_member p o c a)
    (hout : db.member o a = none) : ¬ MembersListed (view ws db) := by
  obtain ⟨call, tx⟩ := q
  cases hq
  obtain ⟨-, ⟨r, hr, horg, -⟩, -, hchange⟩ := h
  intro hl
  obtain ⟨r', hr', hmember⟩ := hl c a _ hchange.row
  have hchannel : (view ws db).channel c = some r := (hchange.other (by simp)).trans hr
  have hnone : (view ws db).member o a = none := (hchange.other (by simp)).trans hout
  cases hchannel.symm.trans hr'
  rw [horg, hnone] at hmember
  cases hmember

/-! ## All runs in which targets belong -/

/-- No addition to a channel is about to commit whose target has no membership in the
organization it names. -/
def TargetsBelong (s : System) : Prop :=
  ∀ t x b p o c a, s.tasks.get t = some x → x.prog = .pure b →
    x.call.call = .add_channel_member p o c a → (s.world.store.member o a).isSome = true

/-- **Every listing names a member of the channel's organization**, in every run in which the
target of every addition has a membership there when the addition commits. The condition is on the
states before the steps; a commit keeps the listings by `CommitSpec.keeps_listed`. -/
theorem members_listed {s : System}
    (h : (engine anyCall).ReachableIn TargetsBelong World.empty s) :
    MembersListed s.world.store := by
  have hv : (allRules false).valid World.empty := Consistent.empty
  refine ((sound false).invariant (P := TargetsBelong) (I := fun v : World => MembersListed v.store)
    (fun s _ => Txn.Rules.clear_of_presumes presumes_nothing s) hv ?_ ?_ h).2
  · intro c a m hm
    cases hm
  · intro s hs _ _ t x o hx hends hg hl
    cases hends with
    | commits hp =>
        refine hg.2.1.keeps_listed hl ?_
        intro p o c a hcall
        exact hs t x _ p o c a hx hp hcall
    | fails | aborts => exact hl

/-! ## Two runs -/

/-- `TargetsBelong`, computed. -/
def targetsBelong (s : System) : Bool :=
  s.tasks.keys.all fun t => (s.tasks.get t).all fun x =>
    match x.prog, x.call.call with
    | .pure _, .add_channel_member _ o _ a => (s.world.store.member o a).isSome
    | _, _ => true

/-- The computed condition implies the one that is stated for all tasks. -/
theorem targetsBelong_sound {s : System} (h : targetsBelong s = true) : TargetsBelong s := by
  intro t x b p o c a hx hp hcall
  have ht : t ∈ s.tasks.keys := s.tasks.covers t (by simp [hx])
  have hcheck := List.all_eq_true.mp h t ht
  rw [hx] at hcheck
  simpa only [Option.all_some, hp, hcall] using hcheck

/-- Calls that run one after the other, each with the number of actions it takes. -/
def inTurn (calls : List (Request × ℕ)) : List (Txn.Move Request) :=
  calls.flatMap fun q => .start 0 q.1 :: List.replicate q.2 (.advance 0)

/-- One person founds the organizations 10 and 20; an invite brings the person 3 into 20; 10
has a team with a channel. -/
def twoOrganizations : List Request :=
  [⟨.create_person ['a'] [] ['A'] ⟨1⟩, ⟨0, 1⟩⟩,
    ⟨.create_organization ⟨1⟩ ['o'] ['o'] ⟨10⟩, ⟨0, 2⟩⟩,
    ⟨.create_organization ⟨1⟩ ['p'] ['p'] ⟨20⟩, ⟨0, 3⟩⟩,
    ⟨.create_invite ⟨1⟩ ⟨20⟩ (some (['t'], first_key)) 100 1 ⟨30⟩, ⟨0, 4⟩⟩,
    ⟨.accept_invite first_key ['c'] [] ['C'] ⟨3⟩, ⟨0, 5⟩⟩,
    ⟨.create_team ⟨1⟩ ⟨10⟩ ['t'] ⟨40⟩, ⟨0, 6⟩⟩,
    ⟨.create_channel ⟨1⟩ ⟨10⟩ (.team ⟨40⟩) ['c'] ⟨50⟩, ⟨0, 7⟩⟩]

/-- The founder lists herself in the channel of 10. -/
theorem members_listed_founder : ∃ s : System,
    (s.world.store.channelMember ⟨50⟩ ⟨1⟩).isSome = true ∧ MembersListed s.world.store := by
  have hrun : (((engine anyCall).runIf targetsBelong (Txn.Engine.idle World.empty)
      (inTurn ((twoOrganizations ++ [Request.mk (.add_channel_member ⟨1⟩ ⟨10⟩ ⟨50⟩ ⟨1⟩) ⟨0, 8⟩]).zip
        [10, 26, 26, 21, 26, 16, 20, 19]))).any fun s =>
          (s.world.store.channelMember ⟨50⟩ ⟨1⟩).isSome) = true := by
    decide +kernel
  obtain ⟨s, hs, hcheck⟩ := (Option.any_eq_true _ _).mp hrun
  exact ⟨s, hcheck, members_listed (.of_runIf (fun _ => targetsBelong_sound) hs)⟩

/-- **An outside actor is listed in a channel**, by calls that run one after the other: the
founder of both organizations sees the member of one while it adds to the other. -/
theorem outsider_listed : ∃ s : System,
    (engine anyCall).serve 100
        (twoOrganizations ++ [⟨.add_channel_member ⟨1⟩ ⟨10⟩ ⟨50⟩ ⟨3⟩, ⟨0, 8⟩⟩])
        (Txn.Engine.idle World.empty) = some s
      ∧ ¬ MembersListed s.world.store := by
  have hrun : (((engine anyCall).serve 100
      (twoOrganizations ++ [⟨.add_channel_member ⟨1⟩ ⟨10⟩ ⟨50⟩ ⟨3⟩, ⟨0, 8⟩⟩])
      (Txn.Engine.idle World.empty)).any fun s =>
        (s.world.store.channelMember ⟨50⟩ ⟨3⟩).isSome
          && (s.world.store.channel ⟨50⟩).any (fun r => r.organization_id = ⟨10⟩)
          && (s.world.store.member ⟨10⟩ ⟨3⟩).isNone) = true := by
    decide +kernel
  obtain ⟨s, hs, hcheck⟩ := (Option.any_eq_true _ _).mp hrun
  simp only [Bool.and_eq_true, Option.isSome_iff_exists, Option.any_eq_true, decide_eq_true_eq,
    Option.isNone_iff_eq_none] at hcheck
  obtain ⟨⟨⟨m, hm⟩, r, hr, horg⟩, hnone⟩ := hcheck
  refine ⟨s, hs, ?_⟩
  intro hl
  obtain ⟨r', hr', hmember⟩ := hl ⟨50⟩ ⟨3⟩ m hm
  cases hr.symm.trans hr'
  rw [horg, hnone] at hmember
  cases hmember

end Fukulow
