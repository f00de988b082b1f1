/-
`operations/leaving.rs`, run alone: the whole departure, row by row and record by record.

`Departing` is the state a departure has come to: the rows about the person that the stage
covers are what the departure makes of them, every other row is as it was, and the records
so far are exactly those the covered rows call for, each once. Each statement extends the
stage. No policy refuses anything on the way, since rows that a record depends on are still
there when it is written.
-/
import Fukulow.Serial.Rules
import Fukulow.Guaranteed.Departure

set_option autoImplicit false

namespace Fukulow

variable {db₀ db t u : Database} {tx : Transaction} {a : ActorId} {o : OrganizationId}
variable {now : Instant} {st st' : Stage}

/-! ## Records and deletions -/

theorem mem_deletions {τ : Type} {key : τ → Key} {xs : List τ} {k : Key} {r : Option (Row k)} :
    Write.put k r ∈ deletions key xs ↔ (∃ x ∈ xs, key x = k) ∧ r = none := by
  rw [deletions, List.mem_map]
  constructor
  · rintro ⟨x, hx, heq⟩
    generalize hk : key x = k' at heq
    cases heq
    exact ⟨⟨x, hx, hk⟩, rfl⟩
  · rintro ⟨⟨x, hx, rfl⟩, rfl⟩
    exact ⟨x, hx, rfl⟩

theorem view_deletions_of_mem {τ : Type} {key : τ → Key} {xs : List τ} {k : Key}
    (hk : ∃ x ∈ xs, key x = k) : (view (deletions key xs) t).rows.get k = none :=
  view_get_of_put (mem_deletions.mpr ⟨hk, rfl⟩) fun _ hr => (mem_deletions.mp hr).2

theorem view_deletions_of_not_mem {τ : Type} {key : τ → Key} {xs : List τ} {k : Key}
    (hk : ∀ x ∈ xs, key x ≠ k) : (view (deletions key xs) t).rows.get k = t.rows.get k := by
  refine view_get_of_untouched fun r hr => ?_
  obtain ⟨⟨x, hx, heq⟩, -⟩ := mem_deletions.mp hr
  exact hk x hx heq

/-- What is written to the rows does not depend on the records that are there. -/
theorem view_rows_congr {ws : List Write} (h : u.rows = t.rows) :
    (view ws u).rows = (view ws t).rows := by
  induction ws generalizing u t with
  | nil => exact h
  | cons write ws ih =>
      refine ih ?_
      cases write with
      | put k r => rw [Write.apply_put_rows, Write.apply_put_rows, h]
      | log row => exact h

/-- Some records by `a` in `o`. -/
def records {τ : Type} (o : OrganizationId) (a : ActorId) (e : τ → Event) (xs : List τ) :
    List Write :=
  xs.map fun x => .log ⟨o, a, e x⟩

/-- Records change no row, and are appended in their order. -/
theorem view_records {τ : Type} {e : τ → Event} {xs : List τ} :
    view (records o a e xs) t
      = { t with audit_events := t.audit_events ++ xs.map fun x => ⟨o, a, e x⟩ } := by
  induction xs generalizing t with
  | nil => simp [records, view]
  | cons x xs ih =>
      refine (ih (t := (Write.log ⟨o, a, e x⟩).apply t)).trans ?_
      simp [Write.apply]

theorem logs_deletions {τ : Type} {key : τ → Key} {xs : List τ} : logs (deletions key xs) = [] := by
  induction xs with
  | nil => rfl
  | cons x xs ih => exact ih

/-- Admitted records are written one after the other: none changes what the next one sees. So the
policy has to be looked at once, in the state before the first. -/
theorem solo_records {τ : Type} {Q : Unit → Database → Prop} {F : SqlError → Prop} {e : τ → Event}
    {xs : List τ} (horg : t.organization o ≠ none) (hactor : t.actor a ≠ none)
    (hadm : ∀ x ∈ xs, audit_events_insert (begin tx (.actor a)) t ⟨o, a, e x⟩ = true)
    (hQ : Q () (view (records o a e xs) t)) :
    (xs.forM fun x => (e x).write (begin tx (.actor a)) o a).Solo Write.apply db₀ Q F t := by
  induction xs generalizing t with
  | nil => exact hQ
  | cons x xs ih =>
      rw [List.forall_mem_cons] at hadm
      change ((e x).write (begin tx (.actor a)) o a >>= fun _ => xs.forM fun x =>
        (e x).write (begin tx (.actor a)) o a).Solo Write.apply db₀ Q F t
      rw [Txn.Prog.solo_bind, solo_event_write horg hactor, hadm.1]
      exact ⟨fun _ => ih horg hactor hadm.2 hQ, (by rintro ⟨⟩)⟩

/-! ## How far a departure has come -/

/-- The records a departure owes the rows of `a`. -/
def LeavingRecord (db : Database) (a : ActorId) (row : AuditRow) : Prop :=
  row.actor_id = a ∧ match row.event with
    | .team_member_removed b team reason => b = a ∧ reason = .leftService
        ∧ ∃ r, db.teamMember team a = some r ∧ r.organization_id = row.organization_id
    | .channel_member_left b channel => b = a
        ∧ ∃ r, db.channelMember channel a = some r ∧ r.organization_id = row.organization_id
    | .member_left b => b = a ∧ ∃ r, db.member row.organization_id a = some r ∧ r.status ≠ .left
    | _ => False

/-- A departure from `db` that has come to the stage `st`. -/
structure Departing (now : Instant) (a : ActorId) (db : Database) (st : Stage) (t : Database) :
    Prop where
  done : ∀ k x, db.rows.get k = some x → person k x = some a → st.reached k (tenant k x) →
    t.rows.get k = departing now k x
  kept : ∀ k, (∀ x, db.rows.get k = some x → person k x = some a → ¬ st.reached k (tenant k x)) →
    t.rows.get k = db.rows.get k
  records : ∃ added, t.audit_events = db.audit_events ++ added ∧ added.Nodup
    ∧ ∀ row, row ∈ added ↔ st.recorded row.organization_id row.event ∧ LeavingRecord db a row

/-- At first nothing is covered, and the state is the one the departure began in. -/
theorem Departing.start : Departing now a db {} db where
  done k x _ _ hreached := by cases k <;> simp [Stage.reached] at hreached
  kept _ _ := rfl
  records := by
    refine ⟨[], (List.append_nil _).symm, List.nodup_nil, fun row => ⟨(by rintro ⟨⟩), ?_⟩⟩
    rintro ⟨hrecorded, -⟩
    cases hevent : row.event <;> simp [Stage.recorded, hevent] at hrecorded

/-- A statement that takes the departure from one stage to the next: it gives the rows that are new
to the stage their departing version, leaves the others, and adds the records that are new. -/
theorem Departing.extend (h : Departing now a db st t)
    (hreached : ∀ k tn, st.reached k tn → st'.reached k tn)
    (hrecorded : ∀ o e, st.recorded o e → st'.recorded o e)
    (hdone : ∀ k x, db.rows.get k = some x → person k x = some a → st'.reached k (tenant k x) →
      ¬ st.reached k (tenant k x) → u.rows.get k = departing now k x)
    (hkept : ∀ k, (∀ x, db.rows.get k = some x → person k x = some a →
      st'.reached k (tenant k x) → st.reached k (tenant k x)) → u.rows.get k = t.rows.get k)
    {more : List AuditRow} (haudit : u.audit_events = t.audit_events ++ more) (hnodup : more.Nodup)
    (hmore : ∀ row, row ∈ more ↔ st'.recorded row.organization_id row.event
      ∧ ¬ st.recorded row.organization_id row.event ∧ LeavingRecord db a row) :
    Departing now a db st' u where
  done k x hx hp hr := by
    by_cases hbefore : st.reached k (tenant k x)
    · rw [hkept k, h.done k x hx hp hbefore]
      intro y hy _ _
      cases hx.symm.trans hy
      exact hbefore
    · exact hdone k x hx hp hr hbefore
  kept k hk := by
    rw [hkept k fun x hx hp hr => absurd hr (hk x hx hp), h.kept k]
    exact fun x hx hp hr => hk x hx hp (hreached k _ hr)
  records := by
    obtain ⟨added, hadded, hnodup', hmem⟩ := h.records
    refine ⟨added ++ more, by rw [haudit, hadded, List.append_assoc], ?_, fun row => ?_⟩
    · -- A record of this stage is none of an earlier one.
      refine List.nodup_append.mpr ⟨hnodup', hnodup, ?_⟩
      rintro row hrow _ hrow' rfl
      exact ((hmore row).mp hrow').2.1 ((hmem row).mp hrow).1
    · rw [List.mem_append, hmem, hmore]
      by_cases hbefore : st.recorded row.organization_id row.event
      · simp [hbefore, hrecorded _ _ hbefore]
      · simp [hbefore]

/-- A statement that deletes the rows that the next stage covers in addition. What a `DELETE` finds
is given as a list, what the stage covers as a predicate; `hxs` says that they are the same rows.
-/
theorem Departing.delete {τ : Type} {key : τ → Key} {xs : List τ} (h : Departing now a db st t)
    (hreached : ∀ k tn, st.reached k tn → st'.reached k tn)
    (hrecorded : ∀ o e, st.recorded o e → st'.recorded o e)
    (hxs : ∀ k, (∃ y ∈ xs, key y = k) ↔ ∃ x, db.rows.get k = some x ∧ person k x = some a
      ∧ st'.reached k (tenant k x) ∧ ¬ st.reached k (tenant k x))
    (hdel : ∀ k x, st'.reached k (tenant k x) → ¬ st.reached k (tenant k x) →
      departing now k x = none)
    (hrows : u.rows = (view (deletions key xs) t).rows)
    {more : List AuditRow} (haudit : u.audit_events = t.audit_events ++ more) (hnodup : more.Nodup)
    (hmore : ∀ row, row ∈ more ↔ st'.recorded row.organization_id row.event
      ∧ ¬ st.recorded row.organization_id row.event ∧ LeavingRecord db a row) :
    Departing now a db st' u := by
  refine h.extend hreached hrecorded ?_ ?_ haudit hnodup hmore
  · intro k x hx hp hafter hbefore
    rw [hrows, hdel k x hafter hbefore]
    exact view_deletions_of_mem ((hxs k).mpr ⟨x, hx, hp, hafter, hbefore⟩)
  · intro k hk
    rw [hrows]
    refine view_deletions_of_not_mem fun y hy hkey => ?_
    obtain ⟨x, hx, hp, hafter, hbefore⟩ := (hxs k).mp ⟨y, hy, hkey⟩
    exact hbefore (hk x hx hp hafter)

/-- A statement that deletes rows and records nothing: the user and its sessions. -/
theorem Departing.delete_only {τ : Type} {key : τ → Key} {xs : List τ}
    (h : Departing now a db st t) (hreached : ∀ k tn, st.reached k tn → st'.reached k tn)
    (hrecorded : ∀ o e, st'.recorded o e ↔ st.recorded o e)
    (hxs : ∀ k, (∃ y ∈ xs, key y = k) ↔ ∃ x, db.rows.get k = some x ∧ person k x = some a
      ∧ st'.reached k (tenant k x) ∧ ¬ st.reached k (tenant k x))
    (hdel : ∀ k x, st'.reached k (tenant k x) → ¬ st.reached k (tenant k x) →
      departing now k x = none) :
    Departing now a db st' (view (deletions key xs) t) := by
  refine h.delete hreached (fun o e => (hrecorded o e).mpr) hxs hdel rfl ?_ List.nodup_nil
    fun row => ?_
  · rw [view_audit, logs_deletions]
  · rw [hrecorded]
    exact ⟨(by rintro ⟨⟩), fun hmem => absurd hmem.1 hmem.2.1⟩

/-- A statement that gives one row its departing version: a membership, or the actor. -/
theorem Departing.put {k : Key} {x : Row k} (h : Departing now a db st t)
    (hx : db.rows.get k = some x) (hp : person k x = some a)
    (hreached : ∀ k tn, st.reached k tn → st'.reached k tn)
    (hnew : ∀ k' y, person k' y = some a → st'.reached k' (tenant k' y) →
      st.reached k' (tenant k' y) ∨ k' = k)
    (hk : st'.reached k (tenant k x))
    (hrecorded : ∀ o e, st'.recorded o e ↔ st.recorded o e) :
    Departing now a db st' ((Write.put k (departing now k x)).apply t) := by
  refine h.extend hreached (fun o e => (hrecorded o e).mpr) ?_ ?_
    (List.append_nil _).symm List.nodup_nil fun row => ?_
  · intro k' y hy hp' hafter hbefore
    obtain rfl := (hnew k' y hp' hafter).resolve_left hbefore
    cases hx.symm.trans hy
    exact Txn.Store.get_put_self _ _ _
  · intro k' hk'
    by_cases hkk : k' = k
    · subst hkk
      rw [h.done k' x hx hp (hk' x hx hp hk)]
      exact Txn.Store.get_put_self _ _ _
    · exact put_get_of_ne hkk
  · rw [hrecorded]
    exact ⟨(by rintro ⟨⟩), fun hmem => absurd hmem.1 hmem.2.1⟩

section Facts

variable (h : Departing now a db st t)
include h

theorem Departing.organization (o : OrganizationId) : t.organization o = db.organization o :=
  h.kept (.organization o) fun _ _ hp => by cases hp

/-- A row about the person that is not covered is as it was, so what the enumerations found at the
start is still there. -/
theorem Departing.unreached {k : Key} {x : Row k} (hx : db.rows.get k = some x)
    (hk : ¬ st.reached k (tenant k x)) : t.rows.get k = some x := by
  rw [h.kept k, hx]
  intro y hy _
  cases hx.symm.trans hy
  exact hk

/-- A row that a departure deletes and that is there is not covered yet. This is why a later round
of a loop finds only rows of its own organization. -/
theorem Departing.seen {k : Key} {x : Row k} (hp : ∀ y : Row k, person k y = some a)
    (hdel : ∀ y : Row k, departing now k y = none) (hx : t.rows.get k = some x) :
    db.rows.get k = some x ∧ ¬ st.reached k (tenant k x) := by
  by_cases hk : ∀ y, db.rows.get k = some y → person k y = some a → ¬ st.reached k (tenant k y)
  · have hdb : db.rows.get k = some x := (h.kept k hk).symm.trans hx
    exact ⟨hdb, hk x hdb (hp x)⟩
  · simp only [not_forall, not_not] at hk
    obtain ⟨y, hy, hpy, hreached⟩ := hk
    cases ((h.done k y hy hpy hreached).trans (hdel y)).symm.trans hx

end Facts

/-! ## The statements

Each takes the departure one stage further. -/

/-- The foreign keys a departure relies on. -/
structure Linked (db : Database) : Prop extends References db where
  membership : ∀ t a r, db.teamMember t a = some r → ∃ m, db.member r.organization_id a = some m
  session : ∀ i r, db.session i = some r → db.user r.actor_id ≠ none

/-- An actor's own records about a membership are admitted while the membership is there, also when
it is a suspended one. So they come before the membership is closed. -/
theorem leaving_admitted {e : Event} (hm : t.member o a ≠ none)
    (he : e = .member_left a ∨ ∃ team, e = .team_member_removed a team .leftService) :
    audit_events_insert (begin tx (.actor a)) t ⟨o, a, e⟩ = true := by
  have hm' : (t.member o a).isSome = true := Option.isSome_iff_ne_none.mpr hm
  obtain rfl | ⟨team, rfl⟩ := he
  · simp [audit_events_insert, audit_events_insert.own, Event.action, Event.target_type,
      Event.target_id, hm']
  · simp [audit_events_insert, audit_events_insert.own, audit_events_insert.left_service,
      Event.action, Event.target_type, Event.target_id, Event.field, Event.metadata,
      List.lookup_cons, RemovalReason.as_str, hm']

/-- An actor's own record about a listing is admitted while the listing is there, which for an
outsider is all that ties it to the organization. -/
theorem unlisting_admitted {c : ChannelId} {r : ChannelMemberRow}
    (hr : t.channelMember c a = some r) (ho : r.organization_id = o) :
    audit_events_insert (begin tx (.actor a)) t ⟨o, a, .channel_member_left a c⟩ = true := by
  rw [audit_events_insert, Bool.or_eq_true]
  refine .inr ?_
  simp only [begin_actor, Option.any_some, Bool.and_eq_true]
  refine ⟨⟨⟨?_, rfl⟩, ?_⟩, Txn.Store.select_nonempty_iff.mpr ⟨.channelMember c a, r, c, hr, ?_⟩⟩
  · simp [audit_events_insert.own, Event.target_type, Event.target_id]
  · simp [audit_events_insert.left_service, Event.field, Event.metadata, List.lookup_cons,
      RemovalReason.as_str]
  · simp [ho, Event.field, Event.metadata]

/-- `leave_organization` deletes the team memberships and records each; the list of those deleted
is the one the records are made from. -/
theorem solo_leave_organization {Q : Unit → Database → Prop} {F : SqlError → Prop}
    (horg : t.organization o ≠ none) (hactor : t.actor a ≠ none) (hm : t.member o a ≠ none)
    (hQ : ∀ teams, teams.Nodup →
      (∀ x, x ∈ teams ↔ ∃ r, t.teamMember x a = some r ∧ r.organization_id = o) →
      Q () (view (records o a (fun x => .team_member_removed a x .leftService) teams)
        (view (deletions (fun x => .teamMember x a) teams) t))) :
    (leave_organization (begin tx (.actor a)) o a).Solo Write.apply db₀ Q F t := by
  have hnodup : (teams_of (begin tx (.actor a)) t o a).Nodup := Txn.Store.nodup_select _ _
  have hkeep : ∀ teams (k : Key), (∀ x, Key.teamMember x a ≠ k) →
      (view (deletions (fun x => .teamMember x a) teams) t).rows.get k = t.rows.get k :=
    fun _ _ hk => view_deletions_of_not_mem fun x _ => hk x
  rw [leave_organization, Txn.Prog.solo_bind, solo_delete_where]
  · refine solo_records ?_ ?_ ?_ (hQ _ hnodup fun _ => mem_teams_of)
    · exact (hkeep _ (.organization o) fun _ => (by rintro ⟨⟩)).trans_ne horg
    · exact (hkeep _ (.actor a) fun _ => (by rintro ⟨⟩)).trans_ne hactor
    · exact fun x _ => leaving_admitted ((hkeep _ (.member o a) fun _ => (by rintro ⟨⟩)).trans_ne hm)
        (.inr ⟨x, rfl⟩)
  · intro db db' x hget
    simp only [hget]
  · exact hnodup.map fun x y heq => by simpa using heq
  · intro x hx
    obtain ⟨r, hr, ho⟩ := mem_teams_of.mp hx
    simp [hr, ho]

/-- `leave_channels` records each listing of the organization, then deletes them: the other order
than in `leave_organization`, as the policy on the records asks for it. -/
theorem solo_leave_channels {Q : Unit → Database → Prop} {F : SqlError → Prop}
    (horg : t.organization o ≠ none) (hactor : t.actor a ≠ none)
    (hQ : ∀ channels, channels.Nodup →
      (∀ x, x ∈ channels ↔ ∃ r, t.channelMember x a = some r ∧ r.organization_id = o) →
      Q () (view (deletions (fun x => .channelMember x a) channels)
        (view (records o a (fun x => .channel_member_left a x) channels) t))) :
    (leave_channels (begin tx (.actor a)) o a).Solo Write.apply db₀ Q F t := by
  rw [leave_channels, Txn.Prog.solo_bind, solo_select, Txn.Prog.solo_bind]
  refine solo_records horg hactor ?_ ?_
  · intro x hx
    obtain ⟨r, hr, ho⟩ := mem_listings.mp hx
    exact unlisting_admitted hr ho
  · generalize hlisted : listings (begin tx (.actor a)) t o a = channels
    have hmem : ∀ x, x ∈ channels ↔ ∃ r, t.channelMember x a = some r ∧ r.organization_id = o :=
      fun x => by rw [← hlisted, mem_listings]
    have hnodup : channels.Nodup := hlisted ▸ Txn.Store.nodup_selectSorted _ _
    -- The records change no row, and the self branch of the policy lets all listings go.
    have hfound : (listings (begin tx (.actor a))
          (view (records o a (fun x => .channel_member_left a x) channels) t) o a).filter
          (fun c => channel_members_delete (begin tx (.actor a))
            (view (records o a (fun x => .channel_member_left a x) channels) t) c a)
        = channels := by
      rw [List.filter_eq_self.mpr, view_records]
      · exact hlisted
      · intro c _
        simp [channel_members_delete]
    rw [Txn.Prog.solo_bind, solo_delete_where, hfound]
    · exact hQ channels hnodup hmem
    · intro db db' x hget
      simp only [hget]
    · rw [hfound]
      exact hnodup.map fun x y heq => by simpa using heq
    · intro x hx
      rw [hfound] at hx
      obtain ⟨r, hr, ho⟩ := (hmem x).mp hx
      rw [view_records]
      exact (Option.any_eq_true _ _).mpr ⟨r, hr, decide_eq_true ho⟩

/-! ## The stages -/

/-- The departure from one organization: its teams, and the membership itself on record. -/
theorem Departing.left_organization {r : MemberRow} {teams : List TeamId}
    (h : Departing now a db st t) (ho : o ∉ st.organizations) (hr : db.member o a = some r)
    (hnodup : teams.Nodup)
    (hmem : ∀ x, x ∈ teams ↔ ∃ r, t.teamMember x a = some r ∧ r.organization_id = o)
    (hrows : u.rows = (view (deletions (fun x => .teamMember x a) teams) t).rows)
    (haudit : u.audit_events = t.audit_events
      ++ (teams.map (fun x => ⟨o, a, .team_member_removed a x .leftService⟩)
        ++ if r.status = .left then [] else [⟨o, a, .member_left a⟩])) :
    Departing now a db { st with organizations := st.organizations ++ [o] } u := by
  refine h.delete ?_ ?_ ?_ ?_ hrows haudit ?_ ?_
  · intro k tn hreached
    cases k with
    | teamMember x b =>
        obtain ⟨o', ho', htn⟩ := hreached
        exact ⟨o', List.mem_append_left _ ho', htn⟩
    | _ => exact hreached
  · intro o' e hrecorded
    cases e with
    | team_member_removed | member_left => exact List.mem_append_left _ hrecorded
    | channel_member_left => exact hrecorded
    | _ => exact hrecorded.elim
  · -- The places in teams that are deleted are those that this organization newly reaches.
    intro k
    constructor
    · rintro ⟨team, hteam, rfl⟩
      obtain ⟨x, hx, hxo⟩ := (hmem team).mp hteam
      obtain ⟨hdb, hbefore⟩ := h.seen (k := .teamMember team a) (fun _ => rfl) (fun _ => rfl) hx
      exact ⟨x, hdb, rfl, ⟨o, List.mem_append_right _ List.mem_cons_self, congrArg some hxo⟩,
        hbefore⟩
    · rintro ⟨x, hx, hp, hafter, hbefore⟩
      cases k with
      | teamMember team b =>
          cases hp
          obtain ⟨o', ho', htn⟩ := hafter
          obtain ho' | ho' := List.mem_append.mp ho'
          · exact absurd ⟨o', ho', htn⟩ hbefore
          · exact ⟨team, (hmem team).mpr ⟨x, h.unreached hx hbefore,
              (Option.some.inj htn).trans (List.mem_singleton.mp ho')⟩, rfl⟩
      | _ => exact absurd hafter hbefore
  · intro k x hafter hbefore
    cases k with
    | teamMember => rfl
    | _ => exact absurd hafter hbefore
  · refine List.nodup_append.mpr ⟨hnodup.map fun x y heq => by simpa using heq, ?_, ?_⟩
    · split <;> simp
    · intro row hrow row' hrow'
      obtain ⟨x, -, rfl⟩ := List.mem_map.mp hrow
      rintro rfl
      split at hrow' <;> simp at hrow'
  · -- So are the records: one for each place, and one for the membership unless it was left.
    rintro ⟨o', p, e⟩
    have hnew : o' ∈ st.organizations ++ [o] → o' ∉ st.organizations → o' = o :=
      fun hafter hbefore => List.mem_singleton.mp ((List.mem_append.mp hafter).resolve_left hbefore)
    rw [List.mem_append, List.mem_map]
    constructor
    · rintro (⟨x, hx, heq⟩ | hlast)
      · cases heq
        obtain ⟨y, hy, hyo⟩ := (hmem x).mp hx
        exact ⟨List.mem_append_right _ List.mem_cons_self, ho, rfl, rfl, rfl, y,
          (h.seen (k := .teamMember x a) (fun _ => rfl) (fun _ => rfl) hy).1, hyo⟩
      · split at hlast
        · cases hlast
        · rename_i hleft
          cases List.mem_singleton.mp hlast
          exact ⟨List.mem_append_right _ List.mem_cons_self, ho, rfl, rfl, r, hr, hleft⟩
    · rintro ⟨hafter, hbefore, rfl, hrec⟩
      cases e with
      | team_member_removed b team reason =>
          obtain ⟨rfl, rfl, y, hy, hyo⟩ := hrec
          cases hnew hafter hbefore
          refine .inl ⟨team, (hmem team).mpr ⟨y, h.unreached hy ?_, hyo⟩, rfl⟩
          rintro ⟨o'', ho'', htn⟩
          exact hbefore ((Option.some.inj htn).symm.trans hyo ▸ ho'')
      | member_left b =>
          obtain ⟨rfl, y, hy, hleft⟩ := hrec
          cases hnew hafter hbefore
          cases hr.symm.trans hy
          rw [if_neg hleft]
          exact .inr List.mem_cons_self
      | channel_member_left => exact absurd hafter hbefore
      | _ => exact hafter.elim

/-- The departure from the channels of one organization. -/
theorem Departing.left_channels {channels : List ChannelId} (h : Departing now a db st t)
    (ho : o ∉ st.channels) (hnodup : channels.Nodup)
    (hmem : ∀ x, x ∈ channels ↔ ∃ r, t.channelMember x a = some r ∧ r.organization_id = o)
    (hrows : u.rows = (view (deletions (fun x => .channelMember x a) channels) t).rows)
    (haudit : u.audit_events
      = t.audit_events ++ channels.map fun x => ⟨o, a, .channel_member_left a x⟩) :
    Departing now a db { st with channels := st.channels ++ [o] } u := by
  refine h.delete ?_ ?_ ?_ ?_ hrows haudit ?_ ?_
  · intro k tn hreached
    cases k with
    | channelMember x b =>
        obtain ⟨o', ho', htn⟩ := hreached
        exact ⟨o', List.mem_append_left _ ho', htn⟩
    | _ => exact hreached
  · intro o' e hrecorded
    cases e with
    | channel_member_left => exact List.mem_append_left _ hrecorded
    | team_member_removed | member_left => exact hrecorded
    | _ => exact hrecorded.elim
  · -- The listings that are deleted are those in channels of this organization.
    intro k
    constructor
    · rintro ⟨c, hc, rfl⟩
      obtain ⟨x, hx, hxo⟩ := (hmem c).mp hc
      obtain ⟨hdb, hbefore⟩ := h.seen (k := .channelMember c a) (fun _ => rfl) (fun _ => rfl) hx
      exact ⟨x, hdb, rfl, ⟨o, List.mem_append_right _ List.mem_cons_self, congrArg some hxo⟩,
        hbefore⟩
    · rintro ⟨x, hx, hp, hafter, hbefore⟩
      cases k with
      | channelMember c b =>
          cases hp
          obtain ⟨o', ho', htn⟩ := hafter
          obtain ho' | ho' := List.mem_append.mp ho'
          · exact absurd ⟨o', ho', htn⟩ hbefore
          · exact ⟨c, (hmem c).mpr ⟨x, h.unreached hx hbefore,
              (Option.some.inj htn).trans (List.mem_singleton.mp ho')⟩, rfl⟩
      | _ => exact absurd hafter hbefore
  · intro k x hafter hbefore
    cases k with
    | channelMember => rfl
    | _ => exact absurd hafter hbefore
  · exact hnodup.map fun x y heq => by simpa using heq
  · rintro ⟨o', p, e⟩
    rw [List.mem_map]
    constructor
    · rintro ⟨x, hx, heq⟩
      cases heq
      obtain ⟨y, hy, hyo⟩ := (hmem x).mp hx
      exact ⟨List.mem_append_right _ List.mem_cons_self, ho, rfl, rfl, y,
        (h.seen (k := .channelMember x a) (fun _ => rfl) (fun _ => rfl) hy).1, hyo⟩
    · rintro ⟨hafter, hbefore, rfl, hrec⟩
      cases e with
      | channel_member_left b c =>
          obtain ⟨rfl, y, hy, hyo⟩ := hrec
          cases List.mem_singleton.mp ((List.mem_append.mp hafter).resolve_left hbefore)
          refine ⟨c, (hmem c).mpr ⟨y, h.unreached hy ?_, hyo⟩, rfl⟩
          rintro ⟨o'', ho'', htn⟩
          exact hbefore ((Option.some.inj htn).symm.trans hyo ▸ ho'')
      | team_member_removed | member_left => exact absurd hafter hbefore
      | _ => exact hafter.elim

end Fukulow
