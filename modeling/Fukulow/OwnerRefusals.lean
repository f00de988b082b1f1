/-
`LastOwner` refuses the last owner only, in the runs in which no target loses its membership
on its way out.

`change_member_role` and `suspend_member` read the target and the owners under the lock on
the organization: what they refuse is so, and stays so to their end. `leave_service` lists
the organizations before it locks them. While it waits for one, a suspension of the departing
actor can commit; the row it then gets was only locked, so its `WHERE` is not tested again,
the owners are hidden from someone who is not active, and an empty list is a refusal:
`refused_without_owning`. A suspension that share-locked its target, as a reactivation does
when it sees it, would have to wait for the departure. In the runs in which none commits
against such a lock the refusals are true.
-/
import Fukulow.Owners
import Fukulow.References
import Fukulow.Txn.Strengthening

set_option autoImplicit false

namespace Fukulow

open Txn (LockMode)

/-- `a` is an active owner of `o`, and the only one. -/
def SoleOwner (db : Database) (o : OrganizationId) (a : ActorId) : Prop :=
  db.activeOwner o a = true ∧ ∀ b, db.activeOwner o b = true → b = a

/-- The replies `LastOwner`, with their organization and target. -/
inductive Refusal : Call → Reply → OrganizationId → ActorId → Prop
  | demotion (p : ActorId) (o : OrganizationId) (a : ActorId) (role : OrganizationRole) :
      Refusal (.change_member_role p o a role) (.change_member_role (.error .lastOwner)) o a
  | suspension (p : ActorId) (o : OrganizationId) (a : ActorId) :
      Refusal (.suspend_member p o a) (.suspend_member (.error .lastOwner)) o a
  | departure (o : OrganizationId) (a : ActorId) :
      Refusal (.leave_service a) (.leave_service (.error (.lastOwner o))) o a

variable {p a : ActorId} {o : OrganizationId} {tx : Transaction} {db : Database}

/-! ## Under the organization's lock -/

section Locked

variable {allowed : Call → Bool} {guarded : Bool} {V : World → Prop} {L : Held} {w w' : World}

/-- A sole owner stays one while the organization is locked: no membership of it changes its role
or its status, so no owner comes or goes. -/
theorem frozen_soleOwner (horg : L.row (.organization o) .update)
    (hl : (rules allowed guarded V).Later L w w') (h : SoleOwner w.store o a) :
    SoleOwner w'.store o a := by
  obtain ⟨howner, honly⟩ := h
  refine ⟨(frozen_activeOwner horg hl a).trans howner, ?_⟩
  intro b hb
  rw [frozen_activeOwner horg hl] at hb
  exact honly b hb

/-- What a refusal of `e` promises. -/
def RefusalPromise (allowed : Call → Bool) (guarded : Bool) (V : World → Prop) {ε : Type} (e : ε)
    (o : OrganizationId) (a : ActorId) (L : Held) (e' : ε) (w : World) : Prop :=
  e' = e → (rules allowed guarded V).Hence L (fun v => SoleOwner v.store o a) w

/-- The owner check of a change of one membership, which was read as an active owner's. The owners
are read under the lock on the organization and are all shown, so an empty rest means that the
target is the only one. -/
theorem wp_owner_check {ε : Type} [FromSql ε] {e : ε} (change : OwnerChange) {r : MemberRow}
    {rest : Sql ε Unit} (hrest : rest.Raises (· ≠ e)) (horg : L.row (.organization o) .update)
    (hr : w.store.member o change.actor = some r) (hstatus : r.status = .active)
    (hrole : r.role = .owner)
    (hvis : organization_members_select (begin tx (.actor p)) w.store o change.actor = true) :
    (rules allowed guarded V).wp (fun _ _ _ _ => True)
      (RefusalPromise allowed guarded V e o change.actor) (do
        let owners ← (active_owners (begin tx (.actor p)) o : Sql SqlError _)
        ensure (check_owner_change owners change) e
        rest : Sql ε Unit) L [] w := by
  have howner : w.store.activeOwner o change.actor = true :=
    Database.activeOwner_iff.mpr ⟨r, hr, hstatus, hrole⟩
  -- A row that is shown is in an organization of the performer, or the performer's own.
  have hp : w.store.active o p = true := by
    simp only [organization_members_select, begin, set_context, Bool.or_eq_true,
      active_organizations_actor, decide_eq_true_eq, Option.some.injEq] at hvis
    obtain hp | hp := hvis
    · exact hp
    · rw [hp]
      exact Database.active_iff.mpr ⟨r, hr, hstatus⟩
  rw [Txn.Rules.wp_bind, wp_lift, active_owners_eq, wp_select]
  intro w' hl hv
  rw [Txn.Rules.wp_bind]
  refine wp_ensure ?_ ?_
  · intro _
    exact Txn.Rules.wp_of_raises hrest (fun _ _ _ _ => trivial) fun _ _ _ hne heq => absurd heq hne
  intro hcheck _ v hl' _
  have hp' : w'.store.active o p = true := (frozen_active horg hl p).trans hp
  refine frozen_soleOwner horg hl' ⟨(frozen_activeOwner horg hl _).trans howner, ?_⟩
  exact fun b hb => owner_of_check hp' hcheck hb

/-- `lock_actor`, then `lock_organization` or an error that is no refusal: what is left to show
begins under the organization's lock. -/
theorem wp_opening_refusing {ε α : Type} [FromSql ε] {e e' : ε} {rest : Option Bool → Sql ε α}
    {s : Settings} {b : ActorId} (he' : e' ≠ e)
    (hrest : ∀ (L' : Held) w' departed, V w' → L'.row (.organization o) .update →
      (rules allowed guarded V).wp (fun _ _ _ _ => True) (RefusalPromise allowed guarded V e o a)
        (rest departed) L' [] w') :
    (rules allowed guarded V).wp (fun _ _ _ _ => True) (RefusalPromise allowed guarded V e o a) (do
      let departed ← (lock_actor s b p : Sql SqlError _)
      if !(← (lock_organization s o .update : Sql SqlError _)) then .throw e'
      else rest departed : Sql ε α) L [] w := by
  rw [Txn.Rules.wp_bind, wp_lift]
  refine wp_lock_actor ?_
  intro L₁ w₁ departed _ _ _ _
  rw [Txn.Rules.wp_bind, wp_lift]
  refine wp_lock_organization ?_ ?_
  · intro _ _ _ _ _ heq
    exact absurd heq he'
  · intro L₂ w₂ _ _ hv₂ horg
    exact hrest L₂ w₂ departed hv₂ horg

/-- A statement of an operation raises a `Database` error, if any. -/
theorem raises_lift {ε α : Type} [FromSql ε] {P : ε → Prop} (hP : ∀ x, P (FromSql.database x))
    (p : Sql SqlError α) : (liftM p : Sql ε α).Raises P :=
  Txn.Prog.raises_mapError hP p

/-- What `change_member_role` refuses is so, and stays so: target and owners are read under the
lock that is held to the end. -/
theorem refusing_change_member_role {role : OrganizationRole} :
    (rules allowed guarded V).wp (fun _ _ _ _ => True)
      (RefusalPromise allowed guarded V .lastOwner o a) (change_member_role tx p o a role)
      L [] w := by
  have hdatabase : ∀ x : SqlError, (FromSql.database x : ChangeMemberRoleError) ≠ .lastOwner :=
    fun x h => by cases h
  unfold change_member_role
  refine wp_opening_refusing (by rintro ⟨⟩) ?_
  intro L₁ w₁ _ hv₁ horg
  rw [Txn.Rules.wp_bind, wp_lift, member, wp_select]
  intro w₂ hl₂ hv₂
  dsimp only
  split
  case h_1 => exact fun h => by cases h
  case h_2 from_ status hread =>
    obtain ⟨r, hr, hpair⟩ := Option.map_eq_some_iff.mp hread
    cases hpair
    obtain ⟨hrow, hvis⟩ := Option.filter_eq_some_iff.mp hr
    split
    · exact fun h => by cases h
    · split
      · trivial
      · -- What comes after the check fails only in the database.
        have hrest : (do
            (update_member (begin tx (.actor p)) o a (fun r => { r with role := role }) :
              Sql SqlError Unit)
            ((Event.member_role_changed a r.role role).write (begin tx (.actor p)) o p :
              Sql SqlError Unit) : Sql ChangeMemberRoleError Unit).Raises (· ≠ .lastOwner) :=
          Txn.Prog.raises_bind (raises_lift hdatabase _) fun _ => raises_lift hdatabase _
        split
        case isTrue hdemote =>
          exact wp_owner_check (.demote a) hrest horg hrow hdemote.1 hdemote.2.1 hvis
        case isFalse =>
          exact Txn.Rules.wp_of_raises hrest (fun _ _ _ _ => trivial)
            fun _ _ _ hne heq => absurd heq hne

/-- What `suspend_member` refuses is so, and stays so, for the same reason. -/
theorem refusing_suspend_member :
    (rules allowed guarded V).wp (fun _ _ _ _ => True)
      (RefusalPromise allowed guarded V .lastOwner o a) (suspend_member tx p o a) L [] w := by
  have hdatabase : ∀ x : SqlError, (FromSql.database x : SuspendMemberError) ≠ .lastOwner :=
    fun x h => by cases h
  unfold suspend_member
  refine wp_opening_refusing (by rintro ⟨⟩) ?_
  intro L₁ w₁ _ hv₁ horg
  rw [Txn.Rules.wp_bind, wp_lift, member, wp_select]
  intro w₂ hl₂ hv₂
  dsimp only
  split
  case h_1 => exact fun h => by cases h
  case h_2 role status hread =>
    obtain ⟨r, hr, hpair⟩ := Option.map_eq_some_iff.mp hread
    cases hpair
    obtain ⟨hrow, hvis⟩ := Option.filter_eq_some_iff.mp hr
    split
    · exact fun h => by cases h
    · rename_i hactive
      have hrest : (do
          (update_member (begin tx (.actor p)) o a (fun r => { r with status := .suspended }) :
            Sql SqlError Unit)
          ((Event.member_suspended a).write (begin tx (.actor p)) o p :
            Sql SqlError Unit) : Sql SuspendMemberError Unit).Raises (· ≠ .lastOwner) :=
        Txn.Prog.raises_bind (raises_lift hdatabase _) fun _ => raises_lift hdatabase _
      split
      case isTrue howner =>
        exact wp_owner_check (.suspend a) hrest horg hrow (by simpa using hactive)
          howner hvis
      case isFalse =>
        exact Txn.Rules.wp_of_raises hrest (fun _ _ _ _ => trivial)
          fun _ _ _ hne heq => absurd heq hne

end Locked

/-! ## The rules with the refusals -/

/-- The share lock that a suspension and a reactivation are presumed to hold on their target. -/
def presumedTarget : Call → Held
  | .suspend_member _ _ a | .reactivate_member _ _ a => [(.row (.actor a), .share)]
  | _ => []

/-- What a failing call promises: a refusal of the last owner is one. -/
def RefusalSpec (q : Request) (out : Outcome) (w : World) : Prop :=
  ∀ reply o a, out = .failed reply → Refusal q.call reply o a → SoleOwner w.store o a

/-- The rules of all calls, over owned organizations, with the refusals. -/
def refusalRules : Txn.Rules (engine anyCall) where
  valid w := Consistent w.store ∧ References w.store ∧ Owned w.store
  guar q L out w := (allRules true).guar q L out w ∧ RefusalSpec q out w
  presumes q := presumedTarget q.call

/-- The rules with the refusals ask for more than those for all calls, so what the operations
guarantee there holds here. -/
theorem refusalRules_refines : refusalRules.Refines (allRules true) where
  valid _ h := h.1
  guar _ _ _ _ h := h.1
  presumes := by
    rintro ⟨c, tx⟩
    cases c with
    | reactivate_member => exact List.Subset.refl _
    | _ => exact List.nil_subset _

variable {L : Held} {w w' : World}

/-- Someone who is locked for departure stays active where it is: a suspension would have to wait
for the share lock on its target, and another departure of the same person for the row. -/
theorem stays_active_locked (hrow : L.row (.actor a) .update) (hl : refusalRules.Later L w w')
    (ha : w.store.active o a = true) : w'.store.active o a = true := by
  refine Txn.Rules.Later.preserves (P := fun v : World => v.store.active o a = true) ?_ hl ha
  intro q L' out v hact hg hc _
  cases out with
  | failed | aborted => exact hact
  | committed ws reply =>
      have hspec := hg.1.2.1
      refine hspec.stays_active ?_ hact
      intro hends
      generalize hq : q.call = c at hends
      cases c with
      | suspend_member p o' a' =>
          obtain ⟨rfl, rfl⟩ := hends
          have hshown : (Resource.row (.actor a'), LockMode.share) ∈
              refusalRules.shown q L' (.committed ws reply) := by
            simp [Txn.Rules.shown, refusalRules, presumedTarget, hq]
          have hfree : LockMode.update.conflicts .share = false := hc _ _ _ hrow hshown
          cases hfree
      | leave_service a' =>
          cases hends
          -- The departure writes the actor's row, and holds a lock on it.
          have hd := hspec.departure hq
          obtain ⟨r, hr, -⟩ := hd.present
          obtain ⟨m, -, hm⟩ := (hg.1.1 _ _ ((hd.puts (.actor a) _).mpr ⟨rfl, r, hr, rfl, rfl⟩)).row
          have hfree : LockMode.update.conflicts m = false :=
            hc _ _ _ hrow (refusalRules.subset_shown q L' _ hm)
          simp at hfree
      | _ => exact hends

/-- The organizations of a departure, locked one after the other, by induction on the list: in the
end all of them are locked. -/
theorem wp_lock_organizations {Q : Held → List Write → List OrganizationId → World → Prop}
    {F : Held → SqlError → World → Prop} {xs : List OrganizationId} (hv : refusalRules.valid w)
    (hQ : ∀ L' w', L ⊆ L' → refusalRules.Later L w w' → refusalRules.valid w' →
      (∀ x ∈ xs, L'.row (.organization x) .update) → Q L' [] xs w') :
    refusalRules.wp Q F (lock_rows Key.organization .update (fun _ x => x) xs) L [] w := by
  induction xs generalizing Q L w with
  | nil => exact hQ L w (List.Subset.refl _) .refl hv (by simp)
  | cons x xs ih =>
      intro w₁ hl₁ hv₁
      change refusalRules.wp Q F
        (lock_rows Key.organization .update (fun _ x => x) xs >>= fun rest => pure (x :: rest))
        _ [] w₁
      rw [Txn.Rules.wp_bind]
      refine ih hv₁ ?_
      intro L' w' hL hl hv' hrows
      have hsub : L ⊆ (Resource.row (.organization x), LockMode.update) :: L :=
        List.subset_cons_self _ _
      exact hQ L' w' (List.Subset.trans hsub hL) (hl₁.trans (hl.mono hsub)) hv'
        (List.forall_mem_cons.mpr ⟨hL List.mem_cons_self, hrows⟩)

/-- What `leave_service` refuses is so, and stays so. Who leaves was active in the organization
when it was listed, still is when it is locked, and is therefore shown its owners, among whom it is
the only one. -/
theorem refusing_leave_service :
    refusalRules.wp (fun _ _ _ _ => True)
      (fun L e w => ∀ o, e = .lastOwner o → refusalRules.Hence L (fun v => SoleOwner v.store o a) w)
      (leave_service tx a) L [] w := by
  have hdatabase : ∀ x : SqlError, ∀ o, (FromSql.database x : LeaveServiceError) ≠ .lastOwner o :=
    fun x o h => by cases h
  unfold leave_service
  rw [Txn.Rules.wp_bind]
  refine Txn.Rules.wp_mapError.mpr (refusalRules_refines.wp (wp_select_locking ?_ ?_))
  · intro _ _ _ _ _ o h
    cases h
  · intro L₁ w₁ r hL₁ hl₁ hv₁ hactor _ _
    dsimp only
    split
    · intro o h
      cases h
    · intro w₂ hl₂ hv₂
      change refusalRules.wp _ _ ((liftM (lock_rows Key.organization .update (fun _ x => x)
        (active_memberships (begin tx (.actor a)) w₂.store a)) : Sql LeaveServiceError _) >>= _) _ _ _
      rw [Txn.Rules.wp_bind]
      refine Txn.Rules.wp_mapError.mpr (wp_lock_organizations hv₂ ?_)
      intro L₃ w₃ hL₃ hl₃ hv₃ hrows
      rw [Txn.Rules.wp_bind]
      have hactor₃ : L₃.row (.actor a) .update := hL₃ hactor
      refine Txn.Rules.wp_mono (Txn.Rules.wp_forM (fun _ (L : Held) ws w => L = L₃ ∧ ws = []
        ∧ refusalRules.Later L₃ w₃ w ∧ refusalRules.valid w) ⟨rfl, rfl, .refl, hv₃⟩ ?_) ?_
        fun _ _ _ h => h
      · -- The check of one organization `x`, where the departing actor is still active.
        rintro done x rest hxs _ _ w ⟨rfl, rfl, hl, -⟩
        have hx : x ∈ active_memberships (begin tx (.actor a)) w₂.store a := by
          rw [hxs]
          simp
        have horg := hrows x hx
        rw [Txn.Rules.wp_bind]
        refine Txn.Rules.wp_mapError.mpr ?_
        intro w₄ hl₄ hv₄
        change refusalRules.wp _ _ (ensure (check_owner_change
          (owners_of (begin tx (.actor a)) x w₄.store) (.leave a))
          (LeaveServiceError.lastOwner x)) _ _ _
        unfold ensure
        split
        · exact ⟨rfl, rfl, hl.trans hl₄, hv₄⟩
        · rename_i hcheck
          intro o ho
          cases ho
          have hactive₂ := mem_active_memberships.mp hx
          have hactive : w₄.store.active x a = true :=
            stays_active_locked hactor₃ (hl.trans hl₄)
              (stays_active_locked hactor hl₃ hactive₂)
          have honly : ∀ b, w₄.store.activeOwner x b = true → b = a := fun b hb =>
            owner_of_check hactive (Bool.eq_false_iff.mpr hcheck) hb
          obtain ⟨b, hb⟩ := hv₄.2.2 x (hv₄.2.1.organization_of_active hactive)
          have hsole : SoleOwner w₄.store x a := ⟨honly b hb ▸ hb, honly⟩
          exact fun v hl' _ => frozen_soleOwner horg (refusalRules_refines.later hl') hsole
      · -- Nothing after the checks refuses.
        rintro L ws - w -
        refine Txn.Rules.wp_of_raises (P := fun e => ∀ o, e ≠ LeaveServiceError.lastOwner o) ?_
          (fun _ _ _ _ => trivial) fun _ _ _ hne o heq => absurd heq (hne o)
        have hlift : ∀ {α : Type} (p : Sql SqlError α), (liftM p : Sql LeaveServiceError α).Raises
            (fun e => ∀ o, e ≠ .lastOwner o) := fun p => raises_lift hdatabase p
        refine Txn.Prog.raises_bind (hlift _) fun memberships => ?_
        refine Txn.Prog.raises_bind (hlift _) fun channels => ?_
        refine Txn.Prog.raises_bind (Txn.Prog.raises_forM (fun row => ?_) _) fun _ => ?_
        · refine Txn.Prog.raises_bind (hlift _) fun _ => ?_
          split
          · exact hlift _
          · trivial
        refine Txn.Prog.raises_bind (Txn.Prog.raises_forM (fun _ => hlift _) _) fun _ => ?_
        refine Txn.Prog.raises_bind (Txn.Prog.raises_forM (fun _ => hlift _) _) fun _ => ?_
        refine Txn.Prog.raises_bind (hlift _) fun _ => ?_
        exact Txn.Prog.raises_bind (hlift _) fun _ => trivial

/-- **The rules with the refusals are sound.** For the three calls that can refuse, both promises
are joined; every other call keeps the one it had. -/
theorem refusalRules_sound : refusalRules.Sound where
  keeps q L out w hv hg := by
    cases out with
    | committed ws reply =>
        have hspec := hg.1.2.1
        exact ⟨hspec.consistent hv.1, hspec.references hv.2.1, hspec.owned hv.2.2⟩
    | failed | aborted => exact hv
  aborts q L w hv := by
    refine ⟨trivial, ?_⟩
    rintro reply o a ⟨⟩
  bodies q w hv hmay := by
    have hbase := refusalRules_refines.wp ((sound true).bodies q w hv.1 hmay)
    have hrefusals : refusalRules.wp (fun _ _ _ _ => True) (fun L reply w => ∀ o a,
        Refusal q.call reply o a → refusalRules.Hence L (fun v => SoleOwner v.store o a) w)
        q.body ((engine anyCall).claims q) [] w := by
      obtain ⟨c, tx⟩ := q
      cases c with
      | change_member_role p o a role =>
          refine Txn.Rules.wp_answer.mpr (Txn.Rules.wp_mono
            (refusalRules_refines.wp refusing_change_member_role) (fun _ _ _ _ h => h) ?_)
          rintro L e w hpromise o a ⟨⟩
          exact refusalRules_refines.hence (hpromise rfl)
      | suspend_member p o a =>
          refine Txn.Rules.wp_answer.mpr (Txn.Rules.wp_mono
            (refusalRules_refines.wp refusing_suspend_member) (fun _ _ _ _ h => h) ?_)
          rintro L e w hpromise o a ⟨⟩
          exact refusalRules_refines.hence (hpromise rfl)
      | leave_service a =>
          refine Txn.Rules.wp_answer.mpr (Txn.Rules.wp_mono
            refusing_leave_service (fun _ _ _ _ h => h) ?_)
          rintro L e w hpromise o a ⟨⟩
          exact hpromise o rfl
      -- No other call has a refusal among its replies.
      | _ =>
          refine Txn.Rules.wp_mono hbase (fun _ _ _ _ _ => trivial) ?_
          rintro L reply w - o a ⟨⟩
    refine Txn.Rules.wp_mono (Txn.Rules.wp_and hbase hrefusals) ?_ ?_
    · rintro L ws reply w ⟨hcommits, -⟩ v hl hv
      refine ⟨hcommits v (refusalRules_refines.later hl) hv.1, ?_⟩
      rintro reply o a ⟨⟩
    · rintro L reply w ⟨hfails, hrefuses⟩ v hl hv
      refine ⟨hfails v (refusalRules_refines.later hl) hv.1, ?_⟩
      rintro _ o a ⟨⟩ hrefusal
      exact hrefuses o a hrefusal v hl hv

/-! ## All runs in which targets stay unlocked -/

/-- No suspension or reactivation is about to commit while another call holds its target's
actor row against `FOR SHARE`, as the target's departure does. -/
def TargetsUnlocked (s : System) : Prop :=
  ∀ t x b p o a, s.tasks.get t = some x → x.prog = .pure b →
    (x.call.call = .suspend_member p o a ∨ x.call.call = .reactivate_member p o a) →
    ∀ t' y m, t' ≠ t → s.tasks.get t' = some y → Held.row y.held (.actor a) m →
      m.conflicts .share = false

/-- The condition is what these rules ask of a run. -/
theorem TargetsUnlocked.clear {s : System} (h : TargetsUnlocked s) : refusalRules.Clear s := by
  intro t x b hx hp t' y hne hy r m m' hm hm'
  obtain ⟨⟨c, tx⟩, prog, L, ws⟩ := x
  cases c with
  | suspend_member p o a =>
      cases List.mem_singleton.mp hm'
      exact h t _ b p o a hx hp (.inl rfl) t' y m hne hy hm
  | reactivate_member p o a =>
      cases List.mem_singleton.mp hm'
      exact h t _ b p o a hx hp (.inr rfl) t' y m hne hy hm
  | _ => exact absurd hm' List.not_mem_nil

/-- **`LastOwner` is no false refusal**, in every run in which no suspension or reactivation
commits against a lock on its target: a read that makes a call refuse shows the target as the
only active owner, and it still is the only one when the refusal is returned. -/
theorem last_owner_refusals {s : System}
    (h : (engine anyCall).ReachableIn TargetsUnlocked World.empty s) :
    (∀ t x k reply o a, s.tasks.get t = some x → x.prog = .read k →
      k (view x.writes s.world.store) = .throw reply → Refusal x.call.call reply o a →
      SoleOwner s.world.store o a)
    ∧ ∀ e ∈ s.world.history, ∀ reply o a, e.outcome = .failed reply →
      Refusal e.call.call reply o a → SoleOwner e.before o a := by
  have hv : refusalRules.valid World.empty :=
    ⟨Consistent.empty, References.empty, fun _ horg => absurd rfl horg⟩
  obtain ⟨hsafe, hhistory⟩ := refusalRules_sound.invariant (P := TargetsUnlocked)
    (I := fun v : World => ∀ e ∈ v.history, ∀ reply o a, e.outcome = .failed reply →
      Refusal e.call.call reply o a → SoleOwner e.before o a)
    (fun s hs => hs.clear) hv (fun e he => absurd he List.not_mem_nil) (by
      intro s _ _ _ t x out _ _ hg hI e he reply o a hout hrefusal
      obtain he | he := List.mem_append.mp he
      · exact hI e he reply o a hout hrefusal
      · cases List.mem_singleton.mp he
        exact hg.2 reply o a hout hrefusal) h
  refine ⟨?_, hhistory⟩
  intro t x k reply o a hx hp hk hrefusal
  have hwp := hsafe.tasks t x hx
  rw [hp] at hwp
  have hread := hwp s.world .refl hsafe.valid
  change refusalRules.wp _ _ (k (view x.writes s.world.store)) _ _ _ at hread
  rw [hk] at hread
  exact (hread s.world .refl hsafe.valid).2 reply o a rfl hrefusal

/-! ## Two runs -/

/-- Is the entry a departure that was refused in organization 10? -/
def refusedLeaving (a : ActorId) (e : Entry) : Bool :=
  match e.call.call, e.outcome with
  | .leave_service a', .failed (.leave_service (.error (.lastOwner ⟨10⟩))) => a' = a
  | _, _ => false

/-- The computed test finds a refusal of a departure. -/
theorem refusedLeaving_sound {e : Entry} (h : refusedLeaving a e = true) :
    ∃ reply, e.outcome = .failed reply ∧ Refusal e.call.call reply ⟨10⟩ a := by
  unfold refusedLeaving at h
  split at h
  · rename_i hcall hout
    cases of_decide_eq_true h
    exact ⟨_, hout, hcall ▸ .departure ⟨10⟩ a⟩
  · cases h

/-- The founder cannot leave, and is the only owner. -/
theorem last_owner_refusals_founder : ∃ e : Entry,
    (∃ reply, e.outcome = .failed reply ∧ Refusal e.call.call reply ⟨10⟩ ⟨1⟩)
      ∧ SoleOwner e.before ⟨10⟩ ⟨1⟩ := by
  have hrun : (((engine anyCall).serve 100 (handover.take 5 ++ [⟨.leave_service ⟨1⟩, ⟨0, 8⟩⟩])
      (Txn.Engine.idle World.empty)).any fun s =>
        s.world.history.any fun e => refusedLeaving ⟨1⟩ e) = true := by
    decide +kernel
  obtain ⟨s, hs, hcheck⟩ := (Option.any_eq_true _ _).mp hrun
  obtain ⟨e, he, hrefused⟩ := List.any_eq_true.mp hcheck
  obtain ⟨reply, hout, hrefusal⟩ := refusedLeaving_sound hrefused
  refine ⟨e, ⟨reply, hout, hrefusal⟩, (last_owner_refusals ?_).2 e he reply _ _ hout hrefusal⟩
  refine Txn.Engine.ReachableIn.of_serve ?_ hs
  intro s halone t x b p o a hx _ _ t' y m hne hy
  by_cases ht : t = 0
  · cases (halone t' (ht ▸ hne)).symm.trans hy
  · cases (halone t ht).symm.trans hx

/-- The member 3 lists the organizations it is active in; 1 suspends it; 3 locks the one it
listed and reads no owner there. -/
def suspendedLeaving : List (Txn.Move Request) :=
  begun 1 ⟨.leave_service ⟨3⟩, ⟨0, 10⟩⟩ 3
    ++ begun 2 ⟨.suspend_member ⟨1⟩ ⟨10⟩ ⟨3⟩, ⟨0, 11⟩⟩ 15
    ++ List.replicate 3 (.advance 1)

/-- **Someone who never was an owner is refused as the last one.** -/
theorem refused_without_owning : ∃ s : System, (engine anyCall).Reachable World.empty s
    ∧ (∃ e ∈ s.world.history, ∃ reply, e.outcome = .failed reply
      ∧ Refusal e.call.call reply ⟨10⟩ ⟨3⟩)
    ∧ ∀ db ∈ s.world.states, db.activeOwner ⟨10⟩ ⟨3⟩ = false := by
  have hrun : (((engine anyCall).serve 100 (handover.take 5) (Txn.Engine.idle World.empty)).any
      fun s => ((engine anyCall).run s suspendedLeaving).any fun s =>
        s.world.history.any (fun e => refusedLeaving ⟨3⟩ e)
          && s.world.states.all fun db => !db.activeOwner ⟨10⟩ ⟨3⟩) = true := by
    decide +kernel
  obtain ⟨s₀, hserve, hrest⟩ := (Option.any_eq_true _ _).mp hrun
  obtain ⟨s, hs, hcheck⟩ := (Option.any_eq_true _ _).mp hrest
  simp only [Bool.and_eq_true, List.all_eq_true, Bool.not_eq_true'] at hcheck
  obtain ⟨e, he, hrefused⟩ := List.any_eq_true.mp hcheck.1
  have hfirst := (Txn.Engine.ReachableIn.of_serve (fun _ h => h) hserve).reachable
  exact ⟨s, hfirst.trans (Txn.Engine.Steps.of_run _ hs), ⟨e, he, refusedLeaving_sound hrefused⟩,
    hcheck.2⟩

end Fukulow
