/-
Departure is complete and permanent.

What a departure leaves behind is the invariant `Consistent`; that nothing is written about
a departed person again is `CommitSpec.frozen_departed`, and the same for the audit log is
`CommitSpec.silent`. Both speak of the state a commit finds, so the order of the history
is all that is left: a departure on record makes its person departed from then on.
-/
import Fukulow.Consistency

set_option autoImplicit false

namespace Fukulow

variable {guarded : Bool} {q : Request} {ws : List Write} {reply : Reply} {db : Database}
variable {a : ActorId}

/-- **No record about someone who has departed.** Every record names its target beside an effect on
a row of the target, and there is none on the rows of someone who has departed. -/
theorem CommitSpec.silent (h : CommitSpec guarded q ws reply db) (hc : Consistent db)
    (ha : db.departed a = true) {row : AuditRow} (hrow : Write.log row ∈ ws) :
    row.event.target_actor ≠ some a := by
  intro htarget
  -- What is left of `a`: no presence, memberships that are left, and no place in a team.
  have hpresent : ¬ db.present a := fun hp => by simp [hp.not_departed] at ha
  have hmember : ∀ {o r}, db.member o a = some r → r.status = .left :=
    fun hr => (hc.closed _ a _ ha hr).1
  have hteam : ∀ {t r}, db.teamMember t a ≠ some r := fun h => by
    cases h.symm.trans (hc.noTeam _ a ha)
  obtain ⟨c, tx⟩ := q
  cases c with
  | create_organization creator name slug o =>
      obtain ⟨-, -, hcreator, rfl⟩ := h
      simp only [List.mem_cons, Write.log.injEq, reduceCtorEq, List.not_mem_nil, or_false,
        false_or] at hrow
      obtain rfl | rfl := hrow <;> cases htarget
      exact hpresent hcreator
  | change_member_role p o b role =>
      obtain rfl | ⟨x, hx, hleft, -, -, hch⟩ := h
      · exact List.not_mem_nil hrow
      · cases hch.mem_log hrow
        cases htarget
        exact hleft (hmember hx)
  | suspend_member p o b =>
      obtain ⟨x, hx, hstatus, -, hch⟩ := h
      cases hch.mem_log hrow
      cases htarget
      cases hstatus.symm.trans (hmember hx)
  | reactivate_member p o b =>
      obtain ⟨x, hx, hstatus, hch⟩ := h
      cases hch.mem_log hrow
      cases htarget
      cases hstatus.symm.trans (hmember hx)
  -- All records of a departure are about the one who departs, who is still present.
  | leave_service b =>
      obtain ⟨hactor, hrecord⟩ := (h.records row).mp hrow
      have hself : row.event.target_actor = some b := by
        generalize row.event = e at hrecord
        cases e with
        | team_member_removed _ _ _ => exact congrArg some hrecord.1
        | member_left _ => exact congrArg some hrecord.1
        | channel_member_left _ _ => exact congrArg some hrecord.1
        | _ => cases hrecord
      cases htarget.symm.trans hself
      exact hpresent h.present
  | create_team p o name t =>
      cases h.2.mem_log hrow
      cases htarget
  | add_team_member p o t b role =>
      obtain ⟨-, -, hactive, hch⟩ := h
      cases hch.mem_log hrow
      cases htarget
      exact Bool.false_ne_true ((hc.not_active ha o).symm.trans hactive)
  | change_team_member_role p o t b role =>
      obtain rfl | ⟨x, hx, -, -, hch⟩ := h
      · exact List.not_mem_nil hrow
      · cases hch.mem_log hrow
        cases htarget
        exact hteam hx
  | remove_team_member p o t b =>
      obtain ⟨x, hx, -, hch⟩ := h
      cases hch.mem_log hrow
      cases htarget
      exact hteam hx
  | create_channel p o scope name ch =>
      cases h.2.2.mem_log hrow
      cases htarget
  | add_channel_member p o ch b =>
      obtain ⟨-, -, hb, hch⟩ := h
      cases hch.mem_log hrow
      cases htarget
      exact hpresent hb
  | create_invite p o token expires n i =>
      obtain ⟨t, hash, -, -, -, -, hch⟩ := h
      cases hch.mem_log hrow
      cases htarget
  | revoke_invite p o i =>
      obtain rfl | ⟨i, x, -, -, -, -, -, hch⟩ := h
      · exact List.not_mem_nil hrow
      · cases hch.mem_log hrow
        cases htarget
  -- The target is new, so it is not one who has departed.
  | accept_invite hash email pw name b =>
      obtain ⟨i, x, -, -, hnone, -, -, -, rfl⟩ := h
      simp only [List.mem_cons, Write.log.injEq, reduceCtorEq, List.not_mem_nil, or_false,
        false_or] at hrow
      subst hrow
      cases htarget
      exact Bool.false_ne_true ((not_departed_of_none hnone).symm.trans ha)
  | create_person email hash name b =>
      obtain ⟨-, -, rfl⟩ := h
      simp at hrow
  | post_message o ch sender id body =>
      obtain ⟨m, -, ⟨-, -, x, hsent⟩ | ⟨-, -, rfl⟩⟩ := h
      · simp [hsent.writes] at hrow
      · exact List.not_mem_nil hrow
  | sign_in email verify token expires i =>
      obtain ⟨t, hash, -, b, -, -, -, rfl⟩ := h
      simp at hrow
  | revoke_session b hash =>
      obtain ⟨i, x, now, -, rfl⟩ := h
      simp at hrow
  | _ =>
      cases h
      exact List.not_mem_nil hrow

/-! ## Whole runs -/

/-- Did the entry's call commit the departure of `a`? -/
def DepartureOf (a : ActorId) (e : Entry) : Prop :=
  e.call.call = .leave_service a ∧ ∃ ws reply, e.outcome = .committed ws reply

/-- What is true of someone who has departed. -/
structure Gone (db : Database) (a : ActorId) : Prop where
  actor : ∀ r, db.actor a = some r → r.display_name = none
  members : ∀ o r, db.member o a = some r → r.status = .left ∧ r.display_name = none
  teams : ∀ t, db.teamMember t a = none
  channels : ∀ c, db.channelMember c a = none
  user : db.user a = none
  sessions : ∀ i r, db.session i = some r → r.actor_id ≠ a

/-- What an ending leaves of someone who has departed: every row as it was, and no record. -/
structure Untouched (a : ActorId) (ws : List Write) (db : Database) : Prop where
  members : ∀ o, (view ws db).member o a = db.member o a
  actor : (view ws db).actor a = db.actor a
  records : ∀ row, Write.log row ∈ ws → row.event.target_actor ≠ some a

theorem Consistent.gone (hc : Consistent db) (ha : db.departed a = true) : Gone db a where
  actor r hr := by
    obtain ⟨x, hx, hdel⟩ := Database.departed_iff.mp ha
    cases hr.symm.trans hx
    exact hc.erased a r hr hdel
  members o r hr := hc.closed o a r ha hr
  teams t := hc.noTeam t a ha
  channels c := hc.noChannel c a ha
  user := hc.noUser a ha
  sessions _ _ hr := hc.noSession ha hr

/-- A departure on record makes its person departed ever after: its own commit does, and no later
one takes it back. -/
theorem departed_of_record {v : World} (h : (allRules false).Later [] World.empty v) {e : Entry}
    (he : e ∈ v.history) (hd : DepartureOf a e) : v.store.departed a = true := by
  refine Txn.Rules.Later.preserves (P := fun v : World => ∀ e ∈ v.history, DepartureOf a e →
    v.store.departed a = true) ?_ h (fun _ he => absurd he List.not_mem_nil) e he hd
  intro q L o w ih hg _ hv e he hd
  obtain he | he := List.mem_append.mp he
  · have ha := ih e he hd
    cases o with
    | committed ws reply => exact hg.2.1.stays_departed hv ha
    | failed | aborted => exact ha
  · obtain rfl := List.mem_singleton.mp he
    obtain ⟨hq, ws, reply, rfl⟩ := hd
    exact (hg.2.1.departure hq).departs

/-- **Departure is complete and permanent.** In every reachable state a departed person has
lost name, memberships, listings, user and sessions, and only departed people are listed
as left; and from the commit of a departure on, no ending changes a membership of that
person or clears the departure, and none records anything about them. -/
theorem departure_is_complete_and_permanent {s : System}
    (h : (engine anyCall).Reachable World.empty s) :
    (∀ a, s.world.store.departed a = true → Gone s.world.store a)
    ∧ (∀ o a r, s.world.store.member o a = some r → r.status = .left →
        s.world.store.departed a = true)
    ∧ ∀ pre e post a, s.world.history = pre ++ e :: post → (∃ d ∈ pre, DepartureOf a d) →
        e.before.departed a = true ∧ Untouched a e.outcome.writes e.before := by
  have hc := reachable_consistent h
  refine ⟨fun a ha => hc.gone ha, hc.left, ?_⟩
  rintro pre e post a hs ⟨d, hd, hleft⟩
  obtain ⟨v, hl, rfl, hbefore, hce, hg, -⟩ := reachable_entry h hs
  have ha : e.before.departed a = true := hbefore ▸ departed_of_record hl hd hleft
  refine ⟨ha, ?_⟩
  cases hout : e.outcome with
  | failed | aborted => exact ⟨fun _ => rfl, rfl, fun _ h => absurd h List.not_mem_nil⟩
  | committed ws reply =>
      rw [hout] at hg
      have hspec : CommitSpec false e.call ws reply e.before := hbefore ▸ hg.2.1
      exact ⟨fun o => hspec.frozen_departed hce ha (k := .member o a) rfl fun _ _ => rfl,
        hspec.frozen_departed hce ha (k := .actor a) rfl fun _ _ => rfl,
        fun row hrow => hspec.silent hce ha hrow⟩

/-- Someone joins by an invite and leaves. -/
theorem departure_is_complete_and_permanent_joined : ∃ s : System,
    s.world.store.departed ⟨3⟩ = true ∧ (s.world.store.member ⟨10⟩ ⟨3⟩).isSome = true
      ∧ Gone s.world.store ⟨3⟩ := by
  obtain ⟨s, hs, hcheck⟩ := reachable_of_serve 100
    (founding ++ [⟨.create_invite ⟨1⟩ ⟨10⟩ (some (['t'], first_key)) 100 1 ⟨30⟩, ⟨0, 4⟩⟩,
      ⟨.accept_invite first_key ['c'] [] ['C'] ⟨3⟩, ⟨0, 5⟩⟩, ⟨.leave_service ⟨3⟩, ⟨0, 6⟩⟩])
    (fun s => s.world.store.departed ⟨3⟩ && (s.world.store.member ⟨10⟩ ⟨3⟩).isSome)
    (by decide +kernel)
  obtain ⟨hdep, hmember⟩ := (Bool.and_eq_true _ _).mp hcheck
  exact ⟨s, hdep, hmember, (departure_is_complete_and_permanent hs).1 ⟨3⟩ hdep⟩

end Fukulow
