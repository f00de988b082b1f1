/-
`leave_service`, end to end: its answer, and everything it leaves behind.

The states are those that any calls lead to, with channel listings of outsiders added by
other means. The answer is the least organization that the person owns alone, if there is
one; where an organization has lost its owners (`Owners`), its plain members are told that
they are its last owner, and that is the only difference.
-/
import Fukulow.Owners
import Fukulow.Serial.Departure
import Fukulow.Serial.Runs

set_option autoImplicit false

namespace Fukulow

/-- `db'` is `db` with more channel listings, of anyone in any channel that can list members. -/
structure OutsideListings (db db' : Database) : Prop where
  others : ∀ k, (∀ c a, k ≠ .channelMember c a) → db'.rows.get k = db.rows.get k
  kept : ∀ c a r, db.channelMember c a = some r → db'.channelMember c a = some r
  added : ∀ c a r, db'.channelMember c a = some r → db.channelMember c a = some r
    ∨ db.actor a ≠ none
      ∧ ∃ x, db.channel c = some x ∧ x.organization_id = r.organization_id ∧ x.scope ≠ .organization

/-- No listings are added, which is allowed too. -/
theorem OutsideListings.refl (db : Database) : OutsideListings db db where
  others _ _ := rfl
  kept _ _ _ := id
  added _ _ _ := .inl

/-- Is `a` the only active owner of `o`? -/
def Database.onlyOwner (db : Database) (o : OrganizationId) (a : ActorId) : Prop :=
  db.activeOwner o a = true ∧ ¬ db.ownedWithout o a

/-- The departure of `a`, alone on `db`: its answer, and what it leaves. -/
structure LeavesExactly (db : Database) (a : ActorId) (tx : Transaction) : Prop where
  notFound : ((Request.mk (.leave_service a) tx).alone db).1
    = .error (.leave_service (.error .notFound)) ↔ ¬ db.present a
  lastOwner : ∀ o, ((Request.mk (.leave_service a) tx).alone db).1
    = .error (.leave_service (.error (.lastOwner o))) ↔
      db.present a ∧ db.onlyOwner o a ∧ ∀ o', o' < o → ¬ db.onlyOwner o' a
  left : ((Request.mk (.leave_service a) tx).alone db).1 = .ok (.leave_service (.ok ())) ↔
    db.present a ∧ ∀ o, ¬ db.onlyOwner o a
  unchanged : ∀ e, ((Request.mk (.leave_service a) tx).alone db).1 = .error e →
    ((Request.mk (.leave_service a) tx).alone db).2 = db
  departed : ∀ reply, ((Request.mk (.leave_service a) tx).alone db).1 = .ok reply →
    Departed tx.now a db ((Request.mk (.leave_service a) tx).alone db).2

variable {db db' : Database} {a : ActorId} {tx : Transaction}

/-! ## Listings of outsiders -/

section Outside

variable (h : OutsideListings db db')
include h

/-- The listings that are added keep the foreign keys: they are of actors who exist, in channels
that exist. -/
theorem OutsideListings.references (href : References db) : References db' where
  member o b r hr := by
    rw [Database.organization, Database.actor, h.others (.organization o) (by simp),
      h.others (.actor b) (by simp)]
    exact href.member o b r ((h.others (.member o b) (by simp)).symm.trans hr)
  team t r hr := by
    rw [Database.organization, h.others (.organization _) (by simp)]
    exact href.team t r ((h.others (.team t) (by simp)).symm.trans hr)
  teamMember t b r hr := by
    rw [Database.team, h.others (.team t) (by simp)]
    exact href.teamMember t b r ((h.others (.teamMember t b) (by simp)).symm.trans hr)
  channel c r hr := by
    rw [Database.organization, h.others (.organization _) (by simp)]
    obtain ⟨horg, hteam⟩ := href.channel c r ((h.others (.channel c) (by simp)).symm.trans hr)
    refine ⟨horg, fun t ht => ?_⟩
    rw [Database.team, h.others (.team t) (by simp)]
    exact hteam t ht
  channelMember c b r hr := by
    rw [Database.actor, h.others (.actor b) (by simp), Database.channel,
      h.others (.channel c) (by simp)]
    exact (h.added c b r hr).elim (href.channelMember c b r) id
  message id r hr := by
    rw [Database.channel, h.others (.channel _) (by simp)]
    exact href.message id r ((h.others (.message id) (by simp)).symm.trans hr)
  invite i r hr := by
    rw [Database.organization, h.others (.organization _) (by simp)]
    exact href.invite i r ((h.others (.invite i) (by simp)).symm.trans hr)

/-- They keep the links that a departure relies on, as the channel of each listing has its
organization. -/
theorem OutsideListings.linked (hc : Consistent db) (href : References db) : Linked db' where
  toReferences := h.references href
  membership t b r hr := by
    rw [Database.member, h.others (.member _ b) (by simp)]
    exact hc.team t b r ((h.others (.teamMember t b) (by simp)).symm.trans hr)
  session i r hr := by
    rw [Database.user, h.others (.user _) (by simp)]
    exact hc.session i r ((h.others (.session i) (by simp)).symm.trans hr)

/-- They are no memberships, so the owners are the same. -/
theorem OutsideListings.owned (ho : Owned db) : Owned db' := by
  intro o horg
  rw [Database.organization, h.others (.organization o) (by simp)] at horg
  obtain ⟨b, hb⟩ := ho o horg
  refine ⟨b, ?_⟩
  rw [Database.activeOwner, Database.member, h.others (.member o b) (by simp)]
  exact hb

end Outside

/-- One more listing, in a channel of a team. -/
theorem OutsideListings.listed {c : ChannelId} {x : ChannelRow} (ha : db.actor a ≠ none)
    (hc : db.channel c = some x) (hscope : x.scope ≠ .organization)
    (hnew : db.channelMember c a = none) :
    OutsideListings db ((Write.put (.channelMember c a) (some ⟨x.organization_id⟩)).apply db) where
  others k hk := put_get_of_ne (hk c a)
  kept d b r hr := by
    refine (put_get_of_ne ?_).trans hr
    rintro ⟨⟩
    cases hr.symm.trans hnew
  added d b r hr := by
    by_cases hk : Key.channelMember d b = .channelMember c a
    · cases hk
      cases (Txn.Store.get_put_self _ _ _).symm.trans hr
      exact .inr ⟨ha, x, hc, rfl, hscope⟩
    · exact .inl ((put_get_of_ne hk).symm.trans hr)

/-! ## The answer -/

/-- An active owner is an active member. -/
theorem Database.active_of_owner {o : OrganizationId} (h : db.activeOwner o a = true) :
    db.active o a = true := by
  obtain ⟨r, hr, hstatus, -⟩ := Database.activeOwner_iff.mp h
  exact Database.active_iff.mpr ⟨r, hr, hstatus⟩

/-- Who owns an organization alone is one on whom it depends, as the query of `leave_service`
counts. -/
theorem Database.onlyOwner.onlyWith {o : OrganizationId} (h : db.onlyOwner o a) : db.onlyWith o a :=
  ⟨Database.active_of_owner h.1, h.2⟩

/-- An organization that depends on a member has it as its only owner, or has none: the query asks
only that no *other* active owner is there. -/
theorem Database.onlyWith.cases {o : OrganizationId} (h : db.onlyWith o a) :
    db.onlyOwner o a ∨ ∀ b, db.activeOwner o b = false := by
  by_cases ha : db.activeOwner o a = true
  · exact .inl ⟨ha, h.2⟩
  · refine .inr fun b => Bool.eq_false_iff.mpr fun hb => ?_
    by_cases hba : b = a
    · exact ha (hba ▸ hb)
    · exact h.2 ⟨b, hba, hb⟩

/-- Without any owner an organization depends on each of its active members. -/
theorem Database.onlyWith_of_ownerless {o : OrganizationId} (ha : db.active o a = true)
    (hnone : ∀ b, db.activeOwner o b = false) : db.onlyWith o a :=
  ⟨ha, by
    rintro ⟨b, -, hb⟩
    cases hb.symm.trans (hnone b)⟩

/-- The organizations without an owner in which `a` is active come after one that `a` owns
alone. -/
def Database.ownerlessLast (db : Database) (a : ActorId) : Prop :=
  ∀ o, db.active o a = true → (∀ b, db.activeOwner o b = false) → ∃ o', o' < o ∧ db.onlyOwner o' a

/-- The least organization that depends on `a` is then one that `a` owns alone, since those without
an owner come later. -/
theorem least_onlyOwner (hlast : db.ownerlessLast a) {o : OrganizationId} (ho : db.onlyWith o a)
    (hleast : ∀ o', o' < o → ¬ db.onlyWith o' a) : db.onlyOwner o a := by
  obtain hown | hnone := ho.cases
  · exact hown
  · obtain ⟨o', hlt, ho'⟩ := hlast o ho.1 hnone
    exact absurd ho'.onlyWith (hleast o' hlt)

/-- The answer to a call that ended as `solo_leave_service` says: read off field by field, with
`ownerlessLast` for the one organization that the answer names. -/
theorem leaves_exactly_of_linked (href : Linked db) (hlast : db.present a → db.ownerlessLast a) :
    LeavesExactly db a tx := by
  obtain ⟨u, t, heq, hpresent, hfree, hdone⟩ | ⟨e, heq, herror⟩ :=
    alone_of_solo (q := ⟨.leave_service a, tx⟩) rfl (solo_leave_service href)
  · -- It goes through, so that no organization depends on `a`.
    have howned : ∀ o, ¬ db.onlyOwner o a := fun o ho => hfree o ho.onlyWith
    refine ⟨?_, fun o => ?_, ?_, ?_, ?_⟩ <;> rw [heq]
    · exact ⟨(by rintro ⟨⟩), fun hno => absurd hpresent hno⟩
    · exact ⟨(by rintro ⟨⟩), fun ho => absurd ho.2.1 (howned o)⟩
    · exact ⟨fun _ => ⟨hpresent, howned⟩, fun _ => rfl⟩
    · rintro _ ⟨⟩
    · exact fun _ _ => hdone
  · obtain ⟨rfl, hno⟩ | ⟨o, rfl, hpresent, ho, hleast⟩ := herror
    · refine ⟨?_, fun o => ?_, ?_, ?_, ?_⟩ <;> rw [heq]
      · exact ⟨fun _ => hno, fun _ => rfl⟩
      · exact ⟨(by rintro ⟨⟩), fun h => absurd h.1 hno⟩
      · exact ⟨(by rintro ⟨⟩), fun h => absurd h.1 hno⟩
      · exact fun _ _ => rfl
      · rintro _ ⟨⟩
    · -- The organization that is named is one that `a` owns alone, and the least of them.
      have hown := least_onlyOwner (hlast hpresent) ho hleast
      refine ⟨?_, fun o' => ?_, ?_, ?_, ?_⟩ <;> rw [heq]
      · exact ⟨(by rintro ⟨⟩), fun hno => absurd hpresent hno⟩
      · constructor
        · intro h
          cases h
          exact ⟨hpresent, hown, fun o' hlt ho' => hleast o' hlt ho'.onlyWith⟩
        · rintro ⟨-, ho', hleast'⟩
          obtain hlt | rfl | hlt := lt_trichotomy o o'
          · exact absurd hown (hleast' o hlt)
          · rfl
          · exact absurd ho'.onlyWith (hleast o' hlt)
      · exact ⟨(by rintro ⟨⟩), fun h => absurd hown (h.2 o)⟩
      · exact fun _ _ => rfl
      · rintro _ ⟨⟩

/-- A departure that is not refused has one reply. -/
theorem left_of_ok (href : Linked db)
    (hok : ((Request.mk (.leave_service a) tx).alone db).1.isOk = true) :
    ∃ t, (Request.mk (.leave_service a) tx).alone db = (.ok (.leave_service (.ok ())), t) := by
  obtain ⟨u, t, heq, -⟩ | ⟨e, heq, -⟩ :=
    alone_of_solo (q := ⟨.leave_service a, tx⟩) rfl (solo_leave_service href)
  · exact ⟨t, heq⟩
  · rw [heq] at hok
    cases hok

/-- **The departure is exact**, unless an organization without an owner comes first. -/
theorem leave_service_exact {s : System} (h : (engine anyCall).Reachable World.empty s)
    (hout : OutsideListings s.world.store db) (a : ActorId) (tx : Transaction) :
    LeavesExactly db a tx ↔ (db.present a → db.ownerlessLast a) := by
  have href : Linked db := hout.linked (reachable_consistent h) (reachable_references h)
  refine ⟨fun hexact hpresent o ha hnone => ?_, leaves_exactly_of_linked href⟩
  -- The call stops at an organization that `a` owns alone, and not after `o`.
  obtain ⟨u, t, -, -, hfree, -⟩ | ⟨e, heq, herror⟩ :=
    alone_of_solo (q := ⟨.leave_service a, tx⟩) rfl (solo_leave_service href)
  · exact absurd (Database.onlyWith_of_ownerless ha hnone) (hfree o)
  · obtain ⟨-, hno⟩ | ⟨o', rfl, -, -, hleast⟩ := herror
    · exact absurd hpresent hno
    · obtain ⟨-, hown, -⟩ := (hexact.lastOwner o').mp (by rw [heq])
      refine ⟨o', lt_of_le_of_ne (not_lt.mp fun hlt => ?_) ?_, hown⟩
      · exact hleast o hlt (Database.onlyWith_of_ownerless ha hnone)
      · rintro rfl
        cases hown.1.symm.trans (hnone a)

/-! ## One call at a time

Only a race takes an organization its last owner, so that calls that run one at a time see
no exception. -/

/-- Where every organization has an owner, none without one can come first. -/
theorem Owned.ownerlessLast (ho : Owned db) (href : References db) (a : ActorId) :
    db.ownerlessLast a := by
  intro o hactive hnone
  obtain ⟨b, hb⟩ := ho o (href.organization_of_active hactive)
  cases hb.symm.trans (hnone b)

/-- Calls one at a time keep an owner in every organization: the owner rule is asked for on the
state that the change is made in. -/
theorem served_owned {qs : List Request} (hc : Consistent db) (ho : Owned db) :
    Owned (served qs db) := by
  induction qs generalizing db with
  | nil => exact ho
  | cons q qs ih => exact ih (alone_consistent hc) (alone_keeps (fun _ _ h => h.owned ho) hc ho)

/-- **One at a time, the departure is exact.** -/
theorem leave_service_exact_alone (qs : List Request) (a : ActorId) (tx : Transaction) :
    LeavesExactly (served qs Database.empty) a tx := by
  have hc : Consistent (served qs Database.empty) := served_consistent Consistent.empty
  have href : References (served qs Database.empty) :=
    served_references Consistent.empty References.empty
  have ho : Owned (served qs Database.empty) :=
    served_owned Consistent.empty fun _ horg => absurd rfl horg
  exact leaves_exactly_of_linked ((OutsideListings.refl _).linked hc href)
    fun _ => ho.ownerlessLast href a

/-- A member is in a team, in its channel and signed in; another organization has a channel too. -/
def settled : List Request :=
  handover ++ [⟨.create_team ⟨1⟩ ⟨10⟩ ['t'] ⟨20⟩, ⟨0, 8⟩⟩,
    ⟨.add_team_member ⟨1⟩ ⟨10⟩ ⟨20⟩ ⟨4⟩ .member, ⟨0, 9⟩⟩,
    ⟨.create_channel ⟨1⟩ ⟨10⟩ (.team ⟨20⟩) ['c'] ⟨40⟩, ⟨0, 10⟩⟩,
    ⟨.add_channel_member ⟨1⟩ ⟨10⟩ ⟨40⟩ ⟨4⟩, ⟨0, 11⟩⟩,
    ⟨.create_organization ⟨2⟩ ['p'] ['p'] ⟨11⟩, ⟨0, 12⟩⟩,
    ⟨.create_team ⟨2⟩ ⟨11⟩ ['u'] ⟨21⟩, ⟨0, 13⟩⟩,
    ⟨.create_channel ⟨2⟩ ⟨11⟩ (.team ⟨21⟩) ['d'] ⟨41⟩, ⟨0, 14⟩⟩,
    ⟨.sign_in ['d'] (fun _ => true) (some (['s'], second_key)) 100 ⟨50⟩, ⟨0, 15⟩⟩]

/-- The other channel lists the member as an outsider. -/
def listed_outside : Database :=
  (Write.put (.channelMember ⟨41⟩ ⟨4⟩) (some ⟨⟨11⟩⟩)).apply (served settled Database.empty)

/-- The member leaves, and nothing of it is left: no team, no channel, no outside listing and no
session. -/
theorem leave_service_exact_member :
    (listed_outside.teamMember ⟨20⟩ ⟨4⟩ ≠ none ∧ listed_outside.channelMember ⟨40⟩ ⟨4⟩ ≠ none
      ∧ listed_outside.channelMember ⟨41⟩ ⟨4⟩ ≠ none ∧ listed_outside.member ⟨11⟩ ⟨4⟩ = none
      ∧ listed_outside.session ⟨50⟩ ≠ none)
    ∧ ∃ after, (Request.mk (.leave_service ⟨4⟩) ⟨0, 16⟩).alone listed_outside
        = (.ok (.leave_service (.ok ())), after)
      ∧ Departed 0 ⟨4⟩ listed_outside after
      ∧ after.teamMember ⟨20⟩ ⟨4⟩ = none ∧ after.channelMember ⟨40⟩ ⟨4⟩ = none
      ∧ after.channelMember ⟨41⟩ ⟨4⟩ = none ∧ after.session ⟨50⟩ = none := by
  have hnodup : (settled.map fun q => q.tx.xid).Nodup := by decide
  obtain ⟨s, hs, -, hstore, -⟩ := reachable_served hnodup
  have ho : Owned (served settled Database.empty) :=
    served_owned Consistent.empty fun _ horg => absurd rfl horg
  have href : References (served settled Database.empty) :=
    served_references Consistent.empty References.empty
  have hchannel : (served settled Database.empty).channel ⟨41⟩
      = some ⟨⟨11⟩, .team ⟨21⟩, ['d'], 0⟩ := by decide +kernel
  have hout : OutsideListings (served settled Database.empty) listed_outside :=
    .listed (by decide +kernel) hchannel (by rintro ⟨⟩) (by decide +kernel)
  have hexact := (leave_service_exact hs (hstore ▸ hout) ⟨4⟩ ⟨0, 16⟩).mpr
    fun _ => (hout.owned ho).ownerlessLast (hout.references href) ⟨4⟩
  have hrows : listed_outside.teamMember ⟨20⟩ ⟨4⟩ = some ⟨⟨10⟩, .member⟩
      ∧ listed_outside.channelMember ⟨40⟩ ⟨4⟩ = some ⟨⟨10⟩⟩
      ∧ listed_outside.channelMember ⟨41⟩ ⟨4⟩ = some ⟨⟨11⟩⟩ ∧ listed_outside.member ⟨11⟩ ⟨4⟩ = none
      ∧ listed_outside.session ⟨50⟩ = some ⟨⟨4⟩, second_key, 100, none⟩ := by
    decide +kernel
  obtain ⟨hteam, hinside, houtside, hmember, hsession⟩ := hrows
  have hok : ((Request.mk (.leave_service ⟨4⟩) ⟨0, 16⟩).alone listed_outside).1.isOk = true := by
    decide +kernel
  have hc : Consistent (served settled Database.empty) := served_consistent Consistent.empty
  obtain ⟨after, heq⟩ := left_of_ok (hout.linked hc href) hok
  have hleft : Departed 0 ⟨4⟩ listed_outside after := by
    have hdeparted := hexact.departed _ (congrArg Prod.fst heq)
    rwa [heq] at hdeparted
  refine ⟨⟨?_, ?_, ?_, hmember, ?_⟩, after, heq, hleft, ?_⟩
  · exact hteam.trans_ne (Option.some_ne_none _)
  · exact hinside.trans_ne (Option.some_ne_none _)
  · exact houtside.trans_ne (Option.some_ne_none _)
  · exact hsession.trans_ne (Option.some_ne_none _)
  · exact ⟨hleft.done (.teamMember ⟨20⟩ ⟨4⟩) _ hteam rfl rfl,
      hleft.done (.channelMember ⟨40⟩ ⟨4⟩) _ hinside rfl rfl,
      hleft.done (.channelMember ⟨41⟩ ⟨4⟩) _ houtside rfl rfl,
      hleft.done (.session ⟨50⟩) _ hsession rfl rfl⟩

/-! ## An organization without an owner -/

/-- The organizations of which `a` is an active owner. -/
def owned_by (db : Database) (a : ActorId) : List OrganizationId :=
  db.rows.select fun
    | .member o b, r => if b = a ∧ r.status = .active ∧ r.role = .owner then some o else none
    | _, _ => none

/-- The listing has exactly the organizations of which `a` is an active owner. -/
theorem mem_owned_by {o : OrganizationId} : o ∈ owned_by db a ↔ db.activeOwner o a = true := by
  refine Txn.Store.mem_select.trans ⟨?_, fun h => ?_⟩
  · rintro ⟨k, r, hr, hread⟩
    cases k with
    | member o' b =>
        simp only [Option.ite_none_right_eq_some, Option.some.injEq] at hread
        obtain ⟨⟨rfl, hstatus, hrole⟩, rfl⟩ := hread
        exact Database.activeOwner_iff.mpr ⟨r, hr, hstatus, hrole⟩
    | _ => cases hread
  · obtain ⟨r, hr, hstatus, hrole⟩ := Database.activeOwner_iff.mp h
    exact ⟨.member o a, r, hr, by simp [hstatus, hrole]⟩

/-- **A plain member is told that it is the last owner.** -/
theorem refused_as_last_owner : ∃ s : System, (engine anyCall).Reachable World.empty s
    ∧ s.world.store.present ⟨1⟩ ∧ (∀ o, ¬ s.world.store.onlyOwner o ⟨1⟩)
    ∧ ((Request.mk (.leave_service ⟨1⟩) ⟨0, 14⟩).alone s.world.store).1
      = .error (.leave_service (.error (.lastOwner ⟨10⟩))) := by
  have hrun : (((engine anyCall).serve 100
      (handover ++ [⟨.suspend_member ⟨1⟩ ⟨10⟩ ⟨3⟩, ⟨0, 8⟩⟩, ⟨.suspend_member ⟨1⟩ ⟨10⟩ ⟨4⟩, ⟨0, 9⟩⟩])
      (Txn.Engine.idle World.empty)).any fun s => ((engine anyCall).run s racing).any fun s =>
        ((s.world.store.actor ⟨1⟩).any fun r => r.deleted_at = none)
          && (owned_by s.world.store ⟨1⟩).isEmpty
          && match ((Request.mk (.leave_service ⟨1⟩) ⟨0, 14⟩).alone s.world.store).1 with
            | .error (.leave_service (.error (.lastOwner o))) => decide (o = ⟨10⟩)
            | _ => false) = true := by
    decide +kernel
  obtain ⟨s₀, hserve, hrest⟩ := (Option.any_eq_true _ _).mp hrun
  obtain ⟨s, hs, hcheck⟩ := (Option.any_eq_true _ _).mp hrest
  simp only [Bool.and_eq_true, List.isEmpty_iff] at hcheck
  obtain ⟨⟨hpresent, hnone⟩, hanswer⟩ := hcheck
  have hfirst := (Txn.Engine.ReachableIn.of_serve (fun _ h => h) hserve).reachable
  refine ⟨s, hfirst.trans (Txn.Engine.Steps.of_run _ hs), ?_, ?_, ?_⟩
  · obtain ⟨r, hr, hdel⟩ := (Option.any_eq_true _ _).mp hpresent
    exact ⟨r, hr, of_decide_eq_true hdel⟩
  · intro o ho
    have hmem := mem_owned_by.mpr ho.1
    rw [hnone] at hmem
    cases hmem
  · split at hanswer
    · rename_i o heq
      rw [heq, of_decide_eq_true hanswer]
    · cases hanswer

end Fukulow
