/-
Who may change the roles and statuses of an organization.

Creating and revoking invites asks for a capability; changing a role, suspending and
reactivating ask for membership only. So a plain member makes itself an owner, and then
invites: `member_invites`. What the calls of one actor do to an organization is otherwise
nothing: as long as none of them is such a change that the owner rule and the statuses let
through, no role or status moves, and no invite is created or revoked without the
capability.
-/
import Fukulow.Serial.Invites
import Fukulow.Serial.Membership
import Fukulow.Serial.Runs

set_option autoImplicit false

namespace Fukulow

/-- Who performs a call that acts in an organization. -/
def Call.performer : Call → Option ActorId
  | .change_member_role p .. | .suspend_member p .. | .reactivate_member p .. | .create_team p ..
  | .add_team_member p .. | .change_team_member_role p .. | .remove_team_member p ..
  | .create_channel p .. | .add_channel_member p .. | .create_invite p .. | .revoke_invite p .. =>
      some p
  | .post_message _ _ sender .. => some sender
  | _ => none

/-- An invite of `o` was created or revoked. -/
inductive InviteManaged (o : OrganizationId) : Call → Except Reply Reply → Prop
  | created (p : ActorId) (token : Option (Text × TokenHash)) (expires : Instant) (n : ℤ)
      (i : InviteId) (made : InviteId × Text) :
      InviteManaged o (.create_invite p o token expires n i) (.ok (.create_invite (.ok made)))
  | revoked (p : ActorId) (i : Option InviteId) :
      InviteManaged o (.revoke_invite p o i) (.ok (.revoke_invite (.ok ())))

/-- The role and the status of a membership. -/
def Database.standing (db : Database) (o : OrganizationId) (a : ActorId) :
    Option (OrganizationRole × MemberStatus) :=
  (db.member o a).map fun r => (r.role, r.status)

/-- The call, run alone on `db`, manages no invite of `o` and changes no role or status there. -/
structure NoPrivilege (o : OrganizationId) (db : Database) (q : Request) : Prop where
  invites : ¬ InviteManaged o q.call (q.alone db).1
  standing : ∀ a, (q.alone db).2.standing o a = db.standing o a

/-- A change of a role or of a status that the rules of its operation let through: none of
them asks for the performer's role. -/
def Climbs (o : OrganizationId) (db : Database) : Call → Prop
  | .change_member_role p o' a role => o' = o ∧ db.active o p = true
      ∧ (∃ r, db.member o a = some r ∧ r.status ≠ .left ∧ r.role ≠ role)
      ∧ (db.activeOwner o a = true → role ≠ .owner → db.ownedWithout o a)
  | .suspend_member p o' a => o' = o ∧ db.active o p = true ∧ a ≠ p ∧ db.active o a = true
      ∧ (db.activeOwner o a = true → db.ownedWithout o a)
  | .reactivate_member p o' a => o' = o ∧ db.active o p = true
      ∧ ∃ r, db.member o a = some r ∧ r.status = .suspended
  | _ => False

variable {db : Database} {q : Request} {o : OrganizationId} {x : ActorId}

/-! ## One call -/

/-- The membership that is changed. -/
theorem Database.member_changed_get {p a : ActorId} {r : MemberRow} {e : Event} :
    (db.member_changed p o a r e).member o a = some r :=
  Txn.Store.get_put_self _ _ _

/-- Every other membership is as it was. -/
theorem Database.member_changed_other {p a b : ActorId} {o' : OrganizationId} {r : MemberRow}
    {e : Event} (h : ¬ (o' = o ∧ b = a)) : (db.member_changed p o a r e).member o' b = db.member o' b :=
  put_get_of_ne (by simpa using h)

/-- A change of another membership, or to the same standing, is none. -/
theorem standing_member_changed {p a : ActorId} {r r' : MemberRow} {e : Event} {o' : OrganizationId}
    (hr : db.member o' a = some r) (h : o' = o → r'.role = r.role ∧ r'.status = r.status)
    (b : ActorId) : (db.member_changed p o' a r' e).standing o b = db.standing o b := by
  by_cases hk : o = o' ∧ b = a
  · obtain ⟨rfl, rfl⟩ := hk
    simp [Database.standing, Database.member_changed_get, hr, h rfl]
  · rw [Database.standing, Database.member_changed_other hk]
    rfl

/-- Does the call write memberships? -/
def Call.writes_members : Call → Bool
  | .create_organization .. | .accept_invite .. | .leave_service .. | .change_member_role ..
  | .suspend_member .. | .reactivate_member .. => true
  | _ => false

/-- A call that writes no memberships keeps every standing; of the commit nothing else has to be
known. -/
theorem standing_kept (hc : Consistent db) (hq : q.call.writes_members = false)
    (o : OrganizationId) (a : ActorId) : (q.alone db).2.standing o a = db.standing o a := by
  obtain ⟨ws, reply, heq, hcommit⟩ | ⟨reply, heq⟩ := alone_cases false hc q
  · rw [heq]
    obtain hsame | heffect := hcommit.effect_or_same (.member o a)
    · simp only [Database.standing, Database.member, hsame]
    · exfalso
      generalize hy : (view ws db).rows.get (.member o a) = y at heffect
      generalize hcall : q.call = c at *
      cases heffect with
      | founder _ _ name slug hfound =>
          rw [← hcall, hfound] at hq
          cases hq
      | admitted _ _ hash email pw name hadm =>
          rw [← hcall, hadm] at hq
          cases hq
      | member_changed p _ _ r r' e _ _ _ _ _ hmember =>
          rw [hcall] at hmember
          cases hmember <;> cases hq
      | departed b _ _ hleave =>
          rw [← hcall, hleave] at hq
          cases hq
  · rw [heq]

/-- Calls of an actor without the capability give it nothing, unless they climb: each of the calls
ends, alone, as its rule says, and its rule names the conditions that `Climbs` denies. -/
theorem no_privilege_of_not_climbs (hc : Consistent db) (href : References db)
    (hx : ¬ db.authorized o x .inviteMember) (hby : q.call.performer = some x)
    (hn : ¬ Climbs o db q.call) : NoPrivilege o db q := by
  obtain ⟨c, tx⟩ := q
  cases c with
  | change_member_role p o' a role =>
      refine ⟨fun h => (by cases h), fun b => ?_⟩
      obtain ⟨u, t, heq, hp, r, hr, hleft, ⟨-, rfl⟩ | ⟨hrole, hguard, rfl⟩⟩ | ⟨e, heq, -⟩ :=
        alone_of_solo (q := ⟨.change_member_role p o' a role, tx⟩) rfl
          (solo_change_member_role (p := p) (a := a) (o := o') href)
      · rw [heq]
      · rw [heq]
        refine standing_member_changed hr ?_ b
        -- In this organization it would be a call that climbs.
        rintro rfl
        exact absurd ⟨rfl, hp, ⟨r, hr, hleft, hrole⟩, hguard⟩ hn
      · rw [heq]
  | suspend_member p o' a =>
      refine ⟨fun h => (by cases h), fun b => ?_⟩
      obtain ⟨u, t, heq, hp, hap, r, hr, hstatus, hguard, rfl⟩ | ⟨e, heq, -⟩ :=
        alone_of_solo (q := ⟨.suspend_member p o' a, tx⟩) rfl
          (solo_suspend_member (p := p) (a := a) (o := o') href)
      · rw [heq]
        refine standing_member_changed hr ?_ b
        rintro rfl
        exact absurd ⟨rfl, hp, hap, Database.active_iff.mpr ⟨r, hr, hstatus⟩, hguard⟩ hn
      · rw [heq]
  | reactivate_member p o' a =>
      refine ⟨fun h => (by cases h), fun b => ?_⟩
      obtain ⟨u, t, heq, hp, r, hr, hstatus, rfl⟩ | ⟨e, heq, -⟩ :=
        alone_of_solo (q := ⟨.reactivate_member p o' a, tx⟩) rfl
          (solo_reactivate_member (p := p) (a := a) (o := o') href)
      · rw [heq]
        refine standing_member_changed hr ?_ b
        rintro rfl
        exact absurd ⟨rfl, hp, r, hr, hstatus⟩ hn
      · rw [heq]
  | create_invite p o' token expires n i =>
      refine ⟨fun h => ?_, standing_kept hc rfl o⟩
      cases hby
      obtain ⟨u, t, heq, hmay, -⟩ | ⟨e, heq, -⟩ :=
        alone_of_solo (q := ⟨.create_invite x o' token expires n i, tx⟩) rfl
          (solo_create_invite (p := x) (o := o') href)
      · rw [heq] at h
        cases h
        exact hx hmay
      · rw [heq] at h
        cases h
  | revoke_invite p o' i =>
      refine ⟨fun h => ?_, standing_kept hc rfl o⟩
      cases hby
      obtain ⟨u, t, heq, hmay⟩ | ⟨e, heq, -⟩ :=
        alone_of_solo (q := ⟨.revoke_invite x o' i, tx⟩) rfl
          (solo_revoke_invite (p := x) (o := o') href)
      · rw [heq] at h
        cases h
        exact hx hmay
      · rw [heq] at h
        cases h
  | create_team | add_team_member | change_team_member_role | remove_team_member | create_channel
  | add_channel_member | post_message =>
      exact ⟨fun h => (by cases h), standing_kept hc rfl o⟩
  | _ => cases hby

/-- A call that climbs changes a standing, so the condition leaves out nothing but what gains. -/
theorem Climbs.gains (hc : Consistent db) (href : References db) (h : Climbs o db q.call) :
    ¬ NoPrivilege o db q := by
  intro hno
  obtain ⟨c, tx⟩ := q
  cases c with
  | change_member_role p o' a role =>
      obtain ⟨rfl, hp, ⟨r, hr, hleft, hrole⟩, hguard⟩ := h
      have hstanding := hno.standing a
      obtain ⟨u, t, heq, -, y, hy, -, hdone⟩ | ⟨e, heq, herror⟩ :=
        alone_of_solo (q := ⟨.change_member_role p o' a role, tx⟩) rfl
          (solo_change_member_role (p := p) (a := a) (o := o') href)
      · cases hr.symm.trans hy
        -- It succeeds, and with another role than before.
        obtain ⟨hsame, -⟩ | ⟨-, -, rfl⟩ := hdone
        · exact hrole hsame
        · rw [heq] at hstanding
          simp only [Database.standing, Database.member_changed_get, hr, Option.map_some,
            Option.some.injEq, Prod.mk.injEq] at hstanding
          exact hrole hstanding.1.symm
      · obtain ⟨-, hnone⟩ | ⟨-, -, howner, hne, hnone⟩ := herror
        · exact hleft (hnone hp r hr)
        · exact hnone (hguard howner hne)
  | suspend_member p o' a =>
      obtain ⟨rfl, hp, hap, ha, hguard⟩ := h
      have hstanding := hno.standing a
      obtain ⟨u, t, heq, -, -, y, hy, hstatus, -, rfl⟩ | ⟨e, heq, herror⟩ :=
        alone_of_solo (q := ⟨.suspend_member p o' a, tx⟩) rfl
          (solo_suspend_member (p := p) (a := a) (o := o') href)
      · rw [heq] at hstanding
        simp [Database.standing, Database.member_changed_get, hy, hstatus] at hstanding
      · obtain ⟨r, hr, -⟩ := Database.active_iff.mp ha
        obtain ⟨-, hnone⟩ | ⟨-, -, hnone⟩ | ⟨-, -, howner, hnone⟩ | ⟨-, hself, -⟩ := herror
        · cases hr.symm.trans (hnone hp)
        · cases ha.symm.trans hnone
        · exact hnone (hguard howner)
        · exact hap hself
  | reactivate_member p o' a =>
      obtain ⟨rfl, hp, r, hr, hsuspended⟩ := h
      have hstanding := hno.standing a
      obtain ⟨u, t, heq, -, y, hy, hstatus, rfl⟩ | ⟨e, heq, herror⟩ :=
        alone_of_solo (q := ⟨.reactivate_member p o' a, tx⟩) rfl
          (solo_reactivate_member (p := p) (a := a) (o := o') href)
      · rw [heq] at hstanding
        simp [Database.standing, Database.member_changed_get, hy, hstatus] at hstanding
      · obtain ⟨-, hnone⟩ | ⟨-, -, hdeparted⟩ | ⟨-, -, hnot⟩ := herror
        · cases hr.symm.trans (hnone hp)
        · cases hsuspended.symm.trans (hc.closed o' a r hdeparted hr).1
        · exact hnot r hr hsuspended
  | _ => exact h

/-! ## All sequences of calls of one actor -/

/-- Without the capability, the same standing is without it: capabilities are read off the role and
the status. -/
theorem not_authorized_of_standing {db' : Database}
    (hx : ¬ db.authorized o x .inviteMember) (h : db'.standing o x = db.standing o x) :
    ¬ db'.authorized o x .inviteMember := by
  rintro ⟨r', hr', hstatus, hholds⟩
  rw [Database.standing, hr', Option.map_some] at h
  obtain ⟨r, hr, heq⟩ := Option.map_eq_some_iff.mp h.symm
  obtain ⟨hrole, hsame⟩ := Prod.mk.inj heq
  exact hx ⟨r, hr, hsame.trans hstatus, hrole ▸ hholds⟩

/-- What holds at every call of a sequence holds at the first, and at every call of the rest. -/
theorem splits_cons {P : List Request → Request → Prop} {q : Request} {qs : List Request}
    (hfirst : P [] q) (hrest : ∀ pre q' post, qs = pre ++ q' :: post → P (q :: pre) q') :
    ∀ pre q' post, q :: qs = pre ++ q' :: post → P pre q' := by
  intro pre q' post heq
  cases pre with
  | nil =>
      cases heq
      exact hfirst
  | cons q'' pre =>
      obtain ⟨rfl, htail⟩ := List.cons.inj heq
      exact hrest pre q' post htail

/-- An empty sequence has no call. -/
theorem splits_nil {P : List Request → Request → Prop} :
    ∀ pre q post, [] = pre ++ q :: post → P pre q := by
  intro pre q post heq
  cases pre <;> cases heq

/-- As long as no call climbs, no call gives anything: each leaves the standing of its performer,
who then has no more capability at the next. -/
theorem no_privilege_of_run (hc : Consistent db) (href : References db)
    (hx : ¬ db.authorized o x .inviteMember) {calls : List Request}
    (hby : ∀ q ∈ calls, q.call.performer = some x)
    (hn : ∀ pre q post, calls = pre ++ q :: post → ¬ Climbs o (served pre db) q.call) :
    ∀ pre q post, calls = pre ++ q :: post → NoPrivilege o (served pre db) q := by
  induction calls generalizing db with
  | nil => exact splits_nil
  | cons q' rest ih =>
      rw [List.forall_mem_cons] at hby
      have hfirst : NoPrivilege o db q' :=
        no_privilege_of_not_climbs hc href hx hby.1 (hn [] q' rest rfl)
      refine splits_cons hfirst (ih (alone_consistent hc) (alone_references hc href)
        (not_authorized_of_standing hx (hfirst.standing x)) hby.2 ?_)
      intro pre q post hrest
      exact hn (q' :: pre) q post (congrArg _ hrest)

/-- **Without a call that climbs, no privilege is self-made**, and with one there is: at the first
call that climbs a standing changes. -/
theorem no_self_made_privilege {s : System} (h : (engine anyCall).Reachable World.empty s)
    (hx : ∃ r, s.world.store.member o x = some r ∧ r.status = .active
      ∧ r.role.holds .inviteMember = false)
    {calls : List Request} (hby : ∀ q ∈ calls, q.call.performer = some x) :
    (∀ pre q post, calls = pre ++ q :: post → NoPrivilege o (served pre s.world.store) q) ↔
      ∀ pre q post, calls = pre ++ q :: post → ¬ Climbs o (served pre s.world.store) q.call := by
  have hc := reachable_consistent h
  have href := reachable_references h
  constructor
  · intro hall pre q post heq hclimbs
    exact hclimbs.gains (served_consistent hc) (served_references hc href) (hall pre q post heq)
  · refine no_privilege_of_run hc href ?_ hby
    rintro ⟨r', hr', -, hholds⟩
    obtain ⟨r, hr, -, hrole⟩ := hx
    cases hr.symm.trans hr'
    rw [hrole] at hholds
    cases hholds

/-- Person 1 founds an organization, and person 3 joins it as a plain member. -/
def plainMember : List Request :=
  founding ++ [⟨.create_invite ⟨1⟩ ⟨10⟩ (some (['t'], first_key)) 100 2 ⟨30⟩, ⟨0, 4⟩⟩,
    ⟨.accept_invite first_key ['c'] [] ['C'] ⟨3⟩, ⟨0, 5⟩⟩]

/-- What the plain member tries: to demote the only owner, to reactivate who is not suspended, to
suspend itself, and to invite. -/
def attempts : List Request :=
  [⟨.change_member_role ⟨3⟩ ⟨10⟩ ⟨1⟩ .member, ⟨0, 6⟩⟩, ⟨.reactivate_member ⟨3⟩ ⟨10⟩ ⟨1⟩, ⟨0, 7⟩⟩,
    ⟨.suspend_member ⟨3⟩ ⟨10⟩ ⟨3⟩, ⟨0, 8⟩⟩,
    ⟨.create_invite ⟨3⟩ ⟨10⟩ (some (['u'], second_key)) 100 1 ⟨31⟩, ⟨0, 9⟩⟩]

/-- None of its attempts climbs, so none gives it anything; each of the four fails for a reason of
its own. -/
theorem no_self_made_privilege_refused : ∃ s : System, (engine anyCall).Reachable World.empty s
    ∧ s.world.store.standing ⟨10⟩ ⟨3⟩ = some (.member, .active)
    ∧ ∀ pre q post, attempts = pre ++ q :: post → NoPrivilege ⟨10⟩ (served pre s.world.store) q := by
  obtain ⟨s, hs, hcheck⟩ := reachable_of_serve 100 plainMember
    (fun s => s.world.store.standing ⟨10⟩ ⟨3⟩ = some (.member, .active)
      && s.world.store.activeOwner ⟨10⟩ ⟨1⟩
      && owners_of (begin ⟨0, 6⟩ (.actor ⟨3⟩)) ⟨10⟩ s.world.store = [⟨1⟩]
      && (served (attempts.take 1) s.world.store).standing ⟨10⟩ ⟨1⟩ = some (.owner, .active))
    (by decide +kernel)
  simp only [Bool.and_eq_true, decide_eq_true_eq] at hcheck
  obtain ⟨⟨⟨hstanding, howner⟩, howners⟩, hactive⟩ := hcheck
  obtain ⟨r, hr, heq⟩ := Option.map_eq_some_iff.mp hstanding
  obtain ⟨hrole, hstatus⟩ := Prod.mk.inj heq
  have hby : ∀ q ∈ attempts, q.call.performer = some ⟨3⟩ := by simp [attempts, Call.performer]
  refine ⟨s, hs, hstanding, ?_⟩
  refine (no_self_made_privilege hs ⟨r, hr, hstatus, by rw [hrole]; rfl⟩ hby).mpr ?_
  refine splits_cons ?_ (splits_cons ?_ (splits_cons ?_ (splits_cons ?_ splits_nil)))
  · -- The owner rule refuses to demote the only owner.
    rintro ⟨-, hp, -, hguard⟩
    obtain ⟨b, hne, hb⟩ := hguard howner (by rintro ⟨⟩)
    have hmem := mem_owners_of ⟨0, 6⟩ hp hb
    rw [served, howners, List.mem_singleton] at hmem
    exact hne hmem
  · rintro ⟨-, -, r', hr', hsuspended⟩
    obtain ⟨r'', hr'', hsame⟩ := Option.map_eq_some_iff.mp hactive
    cases hr'.symm.trans hr''
    cases hsuspended.symm.trans (Prod.mk.inj hsame).2
  · rintro ⟨-, -, hself, -⟩
    exact hself rfl
  · exact id

/-- Is it the answer to an invite that was created? -/
def invite_made : Except Reply Reply → Bool
  | .ok (.create_invite (.ok _)) => true
  | _ => false

/-- The computed test finds the answers with an invite. -/
theorem invite_made_iff {answer : Except Reply Reply} :
    invite_made answer = true ↔ ∃ made, answer = .ok (.create_invite (.ok made)) := by
  constructor
  · intro h
    unfold invite_made at h
    split at h
    · rename_i made
      exact ⟨made, rfl⟩
    · cases h
  · rintro ⟨made, rfl⟩
    rfl

/-- **A plain member makes itself an owner and invites.** Two calls are enough, and the second is
one that asks for the capability. -/
theorem member_invites : ∃ s : System, (engine anyCall).Reachable World.empty s
    ∧ s.world.store.standing ⟨10⟩ ⟨3⟩ = some (.member, .active)
    ∧ ∃ calls : List Request, (∀ q ∈ calls, q.call.performer = some ⟨3⟩)
      ∧ ∃ pre q, calls = pre ++ [q] ∧ InviteManaged ⟨10⟩ q.call (q.alone (served pre s.world.store)).1
      ∧ (served pre s.world.store).standing ⟨10⟩ ⟨3⟩ = some (.owner, .active) := by
  let promote : Request := ⟨.change_member_role ⟨3⟩ ⟨10⟩ ⟨3⟩ .owner, ⟨0, 6⟩⟩
  let invite : Request := ⟨.create_invite ⟨3⟩ ⟨10⟩ (some (['u'], second_key)) 100 1 ⟨31⟩, ⟨0, 7⟩⟩
  obtain ⟨s, hs, hcheck⟩ := reachable_of_serve 100 plainMember
    (fun s => s.world.store.standing ⟨10⟩ ⟨3⟩ = some (.member, .active)
      && (served [promote] s.world.store).standing ⟨10⟩ ⟨3⟩ = some (.owner, .active)
      && invite_made (invite.alone (served [promote] s.world.store)).1) (by decide +kernel)
  simp only [Bool.and_eq_true, decide_eq_true_eq] at hcheck
  obtain ⟨⟨hmember, howner⟩, hinvited⟩ := hcheck
  refine ⟨s, hs, hmember, [promote, invite], ?_, [promote], invite, rfl, ?_, howner⟩
  · simp [promote, invite, Call.performer]
  · obtain ⟨made, heq⟩ := invite_made_iff.mp hinvited
    rw [heq]
    exact .created _ _ _ _ _ made

end Fukulow
