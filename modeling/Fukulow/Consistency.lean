/-
What is true of every committed state: departures are complete.

`Consistent` is the invariant that `leave_service` needs of the state it commits to
(`Leavable`) together with what departures leave behind. Every commit keeps it
(`CommitSpec.consistent`), which makes the rules of all calls sound, and every run from the
empty database goes through consistent states only.
-/
import Fukulow.Effects
import Fukulow.Soundness

set_option autoImplicit false

namespace Fukulow

/-- The committed states: someone listed as left has departed, and a departure is complete. -/
structure Consistent (db : Database) : Prop extends Leavable db where
  erased : ∀ a r, db.actor a = some r → r.deleted_at.isSome = true → r.display_name = none
  closed : ∀ o a r, db.departed a = true → db.member o a = some r →
    r.status = .left ∧ r.display_name = none
  noTeam : ∀ t a, db.departed a = true → db.teamMember t a = none
  noChannel : ∀ c a, db.departed a = true → db.channelMember c a = none
  noUser : ∀ a, db.departed a = true → db.user a = none

theorem Consistent.empty : Consistent Database.empty where
  left _ _ _ h := by cases h
  team _ _ _ h := by cases h
  session _ _ h := by cases h
  erased _ _ h := by cases h
  closed _ _ _ _ h := by cases h
  noTeam _ _ _ := rfl
  noChannel _ _ _ := rfl
  noUser _ _ := rfl

section Facts

variable {db : Database} {a : ActorId}

theorem Consistent.noSession (hc : Consistent db) (ha : db.departed a = true) {i : SessionId}
    {r : SessionRow} (hr : db.session i = some r) : r.actor_id ≠ a := by
  rintro rfl
  exact hc.session i r hr (hc.noUser r.actor_id ha)

theorem Consistent.not_active (hc : Consistent db) (ha : db.departed a = true)
    (o : OrganizationId) : db.active o a = false := by
  rw [← Bool.not_eq_true, Database.active_iff]
  rintro ⟨r, hr, hstatus⟩
  cases hstatus.symm.trans (hc.closed o a r ha hr).1

theorem Database.present.not_departed (h : db.present a) : db.departed a = false := by
  obtain ⟨r, hr, hdel⟩ := h
  simp [Database.departed, hr, hdel]

theorem not_departed_of_none (h : db.actor a = none) : db.departed a = false := by
  simp [Database.departed, h]

end Facts

/-! ## One commit -/

variable {guarded : Bool} {q : Request} {ws : List Write} {reply : Reply} {db : Database}
variable {a : ActorId}

/-- What the guarantee of a committed departure says, read off the call. -/
theorem CommitSpec.departure (h : CommitSpec guarded q ws reply db)
    (hq : q.call = .leave_service a) : Departure ws db guarded q.tx.now a := by
  obtain ⟨c, tx⟩ := q
  cases hq
  exact h

/-- Nothing is written about someone who has departed. Each effect on a personal row found its
person present or absent, or an old row that a departure would have closed or deleted. -/
theorem Effect.not_departed (hc : Consistent db) {k : Key} {r : Option (Row k)}
    (h : Effect guarded q ws db k r) (hk : k.personal = true)
    (hp : ∃ x, (r = some x ∨ db.rows.get k = some x) ∧ person k x = some a) :
    db.departed a = false := by
  rw [← Bool.not_eq_true]
  intro ha
  obtain ⟨x, hx, hp⟩ := hp
  cases h with
  | actor_created b name hnone =>
      cases hp
      simp [Database.departed, hnone] at ha
  | user_created b email hash hnone =>
      cases hp
      simp [Database.departed, hnone] at ha
  | founder o b _ _ _ _ _ hpresent =>
      cases hp
      simp [hpresent.not_departed] at ha
  | admitted o b _ _ _ _ _ _ hnone _ =>
      cases hp
      simp [Database.departed, hnone] at ha
  -- A departure has closed every membership, and no change is made to one that is left.
  | member_changed p o b y y' e _ _ hy hstatus _ _ _ =>
      cases hp
      exact hstatus (hc.closed o a y ha hy).1
  | team_member_added t b o role _ _ hactive =>
      cases hp
      simp [hc.not_active ha o] at hactive
  | team_member_changed t b y role hy =>
      cases hp
      exact Option.some_ne_none y (hy.symm.trans (hc.noTeam t a ha))
  | team_member_removed t b y hy =>
      cases hp
      exact Option.some_ne_none y (hy.symm.trans (hc.noTeam t a ha))
  | channel_member_added p c b o _ _ _ hpresent =>
      cases hp
      simp [hpresent.not_departed] at ha
  | session_opened i y _ hnone hpresent _ =>
      obtain hx | hx := hx
      · cases hx
        cases hp
        simp [hpresent.not_departed] at ha
      · cases hnone.symm.trans hx
  | session_revoked i y now _ hy =>
      have hpy : y.actor_id = a := by
        obtain hx | hx := hx
        · cases hx
          exact Option.some.inj hp
        · cases hy.symm.trans hx
          exact Option.some.inj hp
      exact hc.noSession ha hy hpy
  -- Another departure is of someone else, or of someone who is present.
  | departed b k y _ hpresent _ _ hy hpy =>
      have hba : a = b := by
        obtain hx | hx := hx
        · cases k with
          | session i => cases hx
          | actor | user | member | teamMember | channelMember =>
              exact (Option.some.inj hp).symm.trans (Option.some.inj hpy)
          | _ => cases hk
        · cases hy.symm.trans hx
          exact Option.some.inj (hp.symm.trans hpy)
      subst hba
      simp [hpresent.not_departed] at ha
  | _ => cases hk

/-- A departed person's rows stay as they are. A commit that changed one would have an effect on
it, and there is none. -/
theorem CommitSpec.frozen_departed (h : CommitSpec guarded q ws reply db) (hc : Consistent db)
    (ha : db.departed a = true) {k : Key} (hk : k.personal = true)
    (hp : ∀ x, (view ws db).rows.get k = some x ∨ db.rows.get k = some x → person k x = some a) :
    (view ws db).rows.get k = db.rows.get k := by
  obtain hsame | heffect := h.effect_or_same k
  · exact hsame
  · by_cases hex : ∃ x, (view ws db).rows.get k = some x ∨ db.rows.get k = some x
    · obtain ⟨x, hx⟩ := hex
      have hnot := heffect.not_departed hc hk ⟨x, hx, hp x hx⟩
      simp [hnot] at ha
    · have hnone : ∀ r : Option (Row k), (∀ x, r ≠ some x) → r = none := fun r hr =>
        Option.eq_none_iff_forall_ne_some.mpr hr
      rw [hnone _ fun x hx => hex ⟨x, .inl hx⟩, hnone _ fun x hx => hex ⟨x, .inr hx⟩]

/-- Someone who has departed stays departed: only the actor row tells, and no effect on it is left.
-/
theorem CommitSpec.stays_departed (h : CommitSpec guarded q ws reply db) (hc : Consistent db)
    (ha : db.departed a = true) : (view ws db).departed a = true := by
  have hsame := h.frozen_departed hc ha (k := .actor a) rfl fun _ _ => rfl
  simpa only [Database.departed, Database.actor, hsame] using ha

/-- Only a departure makes someone depart. A new actor has not departed, and no other call writes
an actor row. -/
theorem CommitSpec.departs (h : CommitSpec guarded q ws reply db)
    (ha : (view ws db).departed a = true) : db.departed a = true ∨ q.call = .leave_service a := by
  obtain hsame | heffect := h.effect_or_same (.actor a)
  · left
    simpa only [Database.departed, Database.actor, hsame] using ha
  · generalize hr : (view ws db).rows.get (.actor a) = r at heffect
    simp only [Database.departed, Database.actor, hr] at ha
    cases heffect with
    | actor_created _ name _ => simp at ha
    | departed b _ x hq _ _ _ _ hp =>
        cases hp
        exact .inr hq

theorem Departure.departs {now : Instant} (h : Departure ws db guarded now a) :
    (view ws db).departed a = true := by
  obtain ⟨r, hr, -⟩ := h.present
  rw [Database.departed, Database.actor, h.view_of_person (k := .actor a) rfl hr rfl]
  rfl

/-- No membership row disappears: a departure closes them. -/
theorem CommitSpec.member_stays (h : CommitSpec guarded q ws reply db) {o : OrganizationId}
    {m : MemberRow} (hm : db.member o a = some m) : ∃ m', (view ws db).member o a = some m' := by
  obtain hsame | heffect := h.effect_or_same (.member o a)
  · exact ⟨m, hsame.trans hm⟩
  · generalize hr : (view ws db).rows.get (.member o a) = r at heffect
    cases heffect <;> exact ⟨_, hr⟩

/-- The calls that end the access of `a` to `o`. -/
def Call.ends_access (o : OrganizationId) (a : ActorId) : Call → Prop
  | .suspend_member _ o' a' => o' = o ∧ a' = a
  | .leave_service a' => a' = a
  | _ => False

/-- Any other commit leaves an active membership active. Suspension and departure are the two ways
to lose access, whatever the roles. -/
theorem CommitSpec.stays_active (h : CommitSpec guarded q ws reply db) {o : OrganizationId}
    (hq : ¬ q.call.ends_access o a) (ha : db.active o a = true) :
    (view ws db).active o a = true := by
  obtain ⟨r, hr, hstatus⟩ := Database.active_iff.mp ha
  obtain hsame | heffect := h.effect_or_same (.member o a)
  · exact Database.active_iff.mpr ⟨r, hsame.trans hr, hstatus⟩
  · generalize hx : (view ws db).rows.get (.member o a) = x at heffect
    cases heffect with
    | founder => exact Database.active_iff.mpr ⟨_, hx, rfl⟩
    | admitted => exact Database.active_iff.mpr ⟨_, hx, rfl⟩
    | member_changed p _ _ y y' e _ _ hy _ _ hchange =>
        cases hr.symm.trans hy
        refine Database.active_iff.mpr ⟨y', hx, ?_⟩
        generalize hc : q.call = call at hchange hq
        cases hchange with
        | role role => exact hstatus
        | suspended => exact absurd ⟨rfl, rfl⟩ hq
        | reactivated => rfl
    | departed b _ y hcall _ _ _ _ hp =>
        cases hp
        rw [hcall] at hq
        exact absurd rfl hq

/-- A row about someone who has departed is the one a departure left: this one, or an earlier one
after which nothing was written. -/
theorem CommitSpec.row_of_departed (h : CommitSpec guarded q ws reply db) (hc : Consistent db)
    {k : Key} (hk : k.personal = true) {y : Row k} (hy : (view ws db).rows.get k = some y)
    (hp : person k y = some a) (ha : (view ws db).departed a = true) :
    (db.departed a = true ∧ db.rows.get k = some y)
      ∨ ∃ now x, db.rows.get k = some x ∧ some y = departing now k x := by
  obtain hdep | hq := h.departs ha
  · left
    obtain hold | heffect := h.effect_or_old hy
    · exact ⟨hdep, hold⟩
    · have hnot := heffect.not_departed hc hk ⟨y, .inl rfl, hp⟩
      simp [hnot] at hdep
  · right
    have hd := h.departure hq
    obtain hsame | hput := view_get ws db k
    · have hold := hsame.symm.trans hy
      exact ⟨q.tx.now, y, hold, hy.symm.trans (hd.view_of_person hk hold hp)⟩
    · rw [hy] at hput
      obtain ⟨-, x, hx, -, heq⟩ := (hd.puts k (some y)).mp hput
      exact ⟨q.tx.now, x, hx, heq⟩

/-- **Every commit keeps the committed state consistent.** For a person who has departed each fact
is about a row that the departure left (`row_of_departed`); for the others it is about a row whose
effect found what the foreign keys ask for. -/
theorem CommitSpec.consistent (h : CommitSpec guarded q ws reply db) (hc : Consistent db) :
    Consistent (view ws db) where
  left o a r hr hstatus := by
    obtain hold | heffect := h.effect_or_old hr
    · exact h.stays_departed hc (hc.left o a r hold hstatus)
    · generalize hsome : some r = x at heffect
      cases heffect with
      | founder | admitted => cases hsome; cases hstatus
      | member_changed p _ _ y y' e _ _ _ _ hleft' =>
          cases hsome
          exact absurd hstatus hleft'
      | departed b _ x hq _ _ _ _ hp =>
          cases hp
          exact (h.departure hq).departs
  team t a r hr := by
    have hold : ∀ o, (∃ m, db.member o a = some m) → ∃ m, (view ws db).member o a = some m :=
      fun o ⟨_, hm⟩ => h.member_stays hm
    obtain hrow | heffect := h.effect_or_old hr
    · exact hold _ (hc.team t a r hrow)
    · generalize hsome : some r = x at heffect
      cases heffect with
      | team_member_added _ _ o role _ _ hactive =>
          cases hsome
          obtain ⟨m, hm, -⟩ := Database.active_iff.mp hactive
          exact hold o ⟨m, hm⟩
      | team_member_changed _ _ y role hy =>
          cases hsome
          exact hold _ (hc.team t a y hy)
      | team_member_removed => cases hsome
      | departed => cases hsome
  session i r hr huser := by
    have hdep : ∀ a, q.call = .leave_service a → db.session i = some r → r.actor_id ≠ a := by
      rintro a hq hold rfl
      have hd := h.departure hq
      cases hr.symm.trans (hd.view_of_person (k := .session i) rfl hold rfl)
    have hstays : db.user r.actor_id ≠ none →
        (∀ a, q.call = .leave_service a → r.actor_id ≠ a) → False := by
      intro hsome hne
      obtain heq | heffect := h.effect_or_same (.user r.actor_id)
      · exact hsome (heq.symm.trans huser)
      · generalize hx : (view ws db).rows.get (.user r.actor_id) = x at heffect
        cases heffect with
        | user_created => cases hx.symm.trans huser
        | departed b _ y hq _ _ _ _ hp => exact hne b hq (Option.some.inj hp)
    obtain hold | heffect := h.effect_or_old hr
    · exact hstays (hc.session i r hold) fun a hq => hdep a hq hold
    · generalize hsome : some r = x at heffect
      cases heffect with
      | session_opened _ y _ hnone _ hu =>
          cases hsome
          refine hstays hu ?_
          rintro a hq -
          -- A departure opens no session.
          have hd := h.departure hq
          obtain heq | hput := view_get ws db (.session i)
          · cases hnone.symm.trans (heq.symm.trans hr)
          · obtain ⟨-, z, hz, -⟩ := (hd.puts _ _).mp hput
            cases hnone.symm.trans hz
      | session_revoked _ y now _ hy =>
          cases hsome
          refine hstays (hc.session i y hy) ?_
          rintro a hq ha
          have hd := h.departure hq
          cases hr.symm.trans (hd.view_of_person (k := .session i) rfl hy (congrArg some ha))
      | departed => cases hsome
  erased a r hr hdel := by
    have ha : (view ws db).departed a = true := Database.departed_iff.mpr ⟨r, hr, hdel⟩
    obtain ⟨-, hold⟩ | ⟨now, x, -, heq⟩ := h.row_of_departed hc (k := .actor a) rfl hr rfl ha
    · exact hc.erased a r hold hdel
    · cases heq
      rfl
  closed o a r ha hr := by
    obtain ⟨hdep, hold⟩ | ⟨now, x, -, heq⟩ := h.row_of_departed hc (k := .member o a) rfl hr rfl ha
    · exact hc.closed o a r hdep hold
    · cases heq
      exact ⟨rfl, rfl⟩
  noTeam t a ha := by
    cases hr : (view ws db).teamMember t a with
    | none => rfl
    | some r =>
        obtain ⟨hdep, hold⟩ | ⟨now, x, -, heq⟩ :=
          h.row_of_departed hc (k := .teamMember t a) rfl hr rfl ha
        · cases hold.symm.trans (hc.noTeam t a hdep)
        · cases heq
  noChannel c a ha := by
    cases hr : (view ws db).channelMember c a with
    | none => rfl
    | some r =>
        obtain ⟨hdep, hold⟩ | ⟨now, x, -, heq⟩ :=
          h.row_of_departed hc (k := .channelMember c a) rfl hr rfl ha
        · cases hold.symm.trans (hc.noChannel c a hdep)
        · cases heq
  noUser a ha := by
    cases hr : (view ws db).user a with
    | none => rfl
    | some r =>
        obtain ⟨hdep, hold⟩ | ⟨now, x, -, heq⟩ := h.row_of_departed hc (k := .user a) rfl hr rfl ha
        · cases hold.symm.trans (hc.noUser a hdep)
        · cases heq

/-! ## All runs -/

/-- The rules of all calls. -/
abbrev allRules (guarded : Bool) : Txn.Rules (engine anyCall) :=
  rules anyCall guarded fun w => Consistent w.store

/-- **The rules of all calls are sound**, over any consistent worlds that endings keep. So a
development with an invariant of its own takes the walks as they are, and shows that its worlds are
kept. -/
theorem sound_of (guarded : Bool) {V : World → Prop} (hV : ∀ w, V w → Consistent w.store)
    (hkeep : ∀ q L o (w : World), V w → Consistent ((engine anyCall).finish q L o w).store →
      V ((engine anyCall).finish q L o w)) : (rules anyCall guarded V).Sound where
  keeps q L o w hv hg := by
    refine hkeep q L o w hv ?_
    cases o with
    | committed ws reply => exact hg.2.1.consistent (hV w hv)
    | failed | aborted => exact hV w hv
  aborts _ _ _ _ := trivial
  bodies q w _ _ := bodies q rfl fun _ v _ hv => (hV v hv).toLeavable

/-- In particular over the consistent worlds themselves. -/
theorem sound (guarded : Bool) : (allRules guarded).Sound :=
  sound_of guarded (fun _ hv => hv) fun _ _ _ _ _ hv => hv

/-- Without the guard no lock is presumed: the rules are about every run there is. -/
theorem presumes_nothing {V : World → Prop} (q : Request) :
    (rules anyCall false V).presumes q = [] := by
  obtain ⟨c, tx⟩ := q
  cases c <;> rfl

/-- So every run meets their condition. -/
theorem steps_clear {V : World → Prop} {s s' : System}
    (h : (engine anyCall).Steps s s') :
    Relation.ReflTransGen (fun s s' => (rules anyCall false V).Clear s
      ∧ (engine anyCall).Step s s') s s' :=
  Relation.ReflTransGen.mono
    (fun s _ hs => ⟨Txn.Rules.clear_of_presumes presumes_nothing s, hs⟩) _ _ h

variable {s s' : System}

theorem reachable_safe (h : (engine anyCall).Reachable World.empty s) : (allRules false).Safe s := by
  have hv : (allRules false).valid World.empty := Consistent.empty
  exact ((sound false).reachable hv (steps_clear h)).1

/-- Every run from the empty database moves by endings that meet their guarantees. From here on
nothing has to be said about calls in flight. -/
theorem reachable_later (h : (engine anyCall).Reachable World.empty s) :
    (allRules false).Later [] World.empty s.world := by
  have hv : (allRules false).valid World.empty := Consistent.empty
  exact ((sound false).reachable hv (steps_clear h)).2

/-- So does the rest of a run, from any state reached. -/
theorem reachable_later_steps (h : (engine anyCall).Reachable World.empty s)
    (hs : (engine anyCall).Steps s s') : (allRules false).Later [] s.world s'.world :=
  ((reachable_safe h).steps (sound false) (steps_clear hs)).2

/-- Every committed state is consistent: the empty one is, and every ending keeps it. -/
theorem reachable_consistent (h : (engine anyCall).Reachable World.empty s) :
    Consistent s.world.store := by
  have hv : (allRules false).valid World.empty := Consistent.empty
  exact (reachable_later h).valid hv

/-- The world in which a call on record ended, with what led to it and what came after. The history
holds the states that calls ended in, so any entry can be looked at as it was at its moment. -/
theorem reachable_entry (h : (engine anyCall).Reachable World.empty s) {pre post : List Entry}
    {e : Entry} (hs : s.world.history = pre ++ e :: post) :
    ∃ v : World, (allRules false).Later [] World.empty v ∧ v.history = pre ∧ v.store = e.before
      ∧ Consistent e.before ∧ (allRules false).guar e.call e.held e.outcome v
      ∧ (allRules false).Later [] ((engine anyCall).finish e.call e.held e.outcome v) s.world := by
  obtain ⟨v, hl, hpre, hbefore, hv, hg, hafter⟩ :=
    (reachable_later h).at_entry hs (by simp [World.empty])
  exact ⟨v, hl, hpre, hbefore, hbefore ▸ hv, hg, hafter⟩

/-- Every commit on record did what `CommitSpec` says to a consistent state. -/
theorem reachable_commit (h : (engine anyCall).Reachable World.empty s) {e : Entry}
    (he : e ∈ s.world.history) : Consistent e.before ∧
      ∀ ws reply, e.outcome = .committed ws reply → CommitSpec false e.call ws reply e.before := by
  obtain ⟨pre, post, hs⟩ := List.append_of_mem he
  obtain ⟨v, -, -, hbefore, hc, hg, -⟩ := reachable_entry h hs
  refine ⟨hc, ?_⟩
  intro ws reply hcommit
  rw [hcommit] at hg
  exact hbefore ▸ hg.2.1

/-- A sequential run that passes a check reaches a system that does. The check is evaluated, the
run is not: its existence is what the evaluation shows. -/
theorem reachable_of_serve (fuel : ℕ) (calls : List Request) (check : System → Bool)
    (h : ((engine anyCall).serve fuel calls (Txn.Engine.idle World.empty)).any check = true) :
    ∃ s, (engine anyCall).Reachable World.empty s ∧ check s = true := by
  obtain ⟨s, hs, hcheck⟩ := (Option.any_eq_true _ _).mp h
  exact ⟨s, (Txn.Engine.ReachableIn.of_serve (fun _ h => h) hs).reachable, hcheck⟩

/-- Two people, and an organization of the first: where the concrete runs begin. -/
def founding : List Request :=
  [⟨.create_person ['a'] [] ['A'] ⟨1⟩, ⟨0, 1⟩⟩, ⟨.create_person ['b'] [] ['B'] ⟨2⟩, ⟨0, 2⟩⟩,
    ⟨.create_organization ⟨1⟩ ['o'] ['o'] ⟨10⟩, ⟨0, 3⟩⟩]

end Fukulow
