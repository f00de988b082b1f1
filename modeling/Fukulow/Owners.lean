/-
Every organization keeps an active owner, in the runs in which no reactivation commits
while its target is on the way out.

An organization is founded with an owner, and a change that takes the role of owner away
leaves another owner behind. For the changes of one member this is the organization's
lock; a departure locks the organizations where it saw itself active, and relies on the
actor lock to keep the others that way. `reactivate_member` respects that lock when row
security shows it its target, and goes on without it otherwise: the share lock that it is
then presumed to hold is the condition here, and `owner_lost` is a run without it.
-/
import Fukulow.Consistency

set_option autoImplicit false

namespace Fukulow

/-- Every organization has an active owner. -/
def Owned (db : Database) : Prop :=
  ∀ o, db.organization o ≠ none → ∃ a, db.activeOwner o a = true

variable {q : Request} {ws : List Write} {reply : Reply} {db : Database}

/-- A founded organization has its creator as owner, from the same commit on. -/
theorem OrganizationCreated.owner {creator : ActorId} {name slug : Text} {o : OrganizationId}
    (h : OrganizationCreated ws db creator name slug o) :
    (view ws db).activeOwner o creator = true := by
  obtain ⟨-, -, -, rfl⟩ := h
  refine Database.activeOwner_iff.mpr ⟨⟨.owner, .active, none⟩, ?_, rfl, rfl⟩
  exact view_get_of_put (by simp) (by simp)

/-- An owner whose membership is not written is still there in the new state. -/
theorem Database.activeOwner_of_same {o : OrganizationId} {a : ActorId}
    (hsame : (view ws db).member o a = db.member o a) (h : db.activeOwner o a = true) :
    (view ws db).activeOwner o a = true := by
  rwa [Database.activeOwner, hsame]

/-- **A commit leaves every organization an owner.** A change of a membership that counts against
the owners was made under the organization's lock, with another owner seen; a departure locks the
organizations it saw, and the guard says that these are all. -/
theorem CommitSpec.owned (h : CommitSpec true q ws reply db) (ho : Owned db) :
    Owned (view ws db) := by
  intro o horg
  obtain ⟨r, hr⟩ := Option.ne_none_iff_exists'.mp horg
  obtain hold | heffect := h.effect_or_old hr
  · -- The organization was there, with an owner `a`.
    obtain ⟨a, ha⟩ := ho o (by simp [Database.organization, hold])
    obtain hsame | heffect := h.effect_or_same (.member o a)
    · exact ⟨a, Database.activeOwner_of_same hsame ha⟩
    · obtain ⟨x, hx, -, -⟩ := Database.activeOwner_iff.mp ha
      generalize hy : (view ws db).rows.get (.member o a) = y at heffect
      cases heffect with
      | founder _ _ _ _ _ _ hnone _ => cases hnone.symm.trans hx
      | admitted _ _ _ _ _ _ _ _ _ hnone => cases hnone.symm.trans hx
      -- The owner stays one, or another owner was seen and is not written.
      | member_changed p _ _ r r' e hws _ _ _ _ _ hguard =>
          obtain ⟨hrole, hstatus⟩ | ⟨b, hne, hb⟩ := hguard ha
          · exact ⟨a, Database.activeOwner_iff.mpr ⟨r', hy, hstatus, hrole⟩⟩
          · refine ⟨b, Database.activeOwner_of_same (view_get_of_untouched ?_) hb⟩
            intro r'' hput
            rw [hws] at hput
            simp [hne] at hput
      -- A guarded departure leaves another owner, whose rows it does not write.
      | departed c _ z hq _ hguard _ hz hp =>
          cases hp
          obtain ⟨b, hne, hb⟩ := hguard rfl o ha
          have hd := h.departure hq
          refine ⟨b, Database.activeOwner_of_same (hd.view_of_other ?_) hb⟩
          rintro - _ -
          exact fun heq => hne (Option.some.inj heq)
  · -- The organization is new.
    cases heffect with
    | organization_created _ name slug creator hq hnone =>
        obtain ⟨c, tx⟩ := q
        cases hq
        exact ⟨creator, OrganizationCreated.owner h⟩
    | departed _ _ _ _ _ _ hk => cases hk

/-! ## The runs -/

/-- An invite brings two people in; the first of them becomes an owner. -/
def handover : List Request :=
  founding ++ [⟨.create_invite ⟨1⟩ ⟨10⟩ (some (['t'], first_key)) 100 2 ⟨30⟩, ⟨0, 4⟩⟩,
    ⟨.accept_invite first_key ['c'] [] ['C'] ⟨3⟩, ⟨0, 5⟩⟩,
    ⟨.accept_invite first_key ['d'] [] ['D'] ⟨4⟩, ⟨0, 6⟩⟩,
    ⟨.change_member_role ⟨1⟩ ⟨10⟩ ⟨3⟩ .owner, ⟨0, 7⟩⟩]

/-! ## All runs without a racing reactivation -/

/-- No reactivation is about to commit while another call holds its target's actor row
against `FOR SHARE`, as the target's departure does. -/
def ReactivationsClear (s : System) : Prop :=
  ∀ t x b p o a, s.tasks.get t = some x → x.prog = .pure b →
    x.call.call = .reactivate_member p o a →
    ∀ t' y m, t' ≠ t → s.tasks.get t' = some y → Held.row y.held (.actor a) m →
      m.conflicts .share = false

/-- The condition is what the rules ask of a run: a reactivation that commits holds, or could hold,
the share lock on its target. -/
theorem ReactivationsClear.clear {s : System} (h : ReactivationsClear s) :
    (allRules true).Clear s := by
  intro t x b hx hp t' y hne hy r m m' hm hm'
  obtain ⟨⟨c, tx⟩, prog, L, ws⟩ := x
  cases c with
  | reactivate_member p o a =>
      cases List.mem_singleton.mp hm'
      exact h t _ b p o a hx hp rfl t' y m hne hy hm
  | _ => exact absurd hm' List.not_mem_nil

/-- **Every organization keeps an active owner**, in every run in which no reactivation commits
against a lock on its target. The condition is on the state before each step, and every commit of
such a run is guarded. -/
theorem owners_kept {s : System}
    (h : (engine anyCall).ReachableIn ReactivationsClear World.empty s) : Owned s.world.store := by
  have hv : (allRules true).valid World.empty := Consistent.empty
  have hclear : (engine anyCall).ReachableIn (allRules true).Clear World.empty s :=
    Relation.ReflTransGen.mono (fun _ _ hs => ⟨hs.1.clear, hs.2⟩) _ _ h
  refine Txn.Rules.Later.preserves (P := fun v : World => Owned v.store) ?_
    ((sound true).reachable hv hclear).2 (fun _ horg => absurd rfl horg)
  intro q L o w ho hg _ _
  cases o with
  | committed ws reply => exact hg.2.1.owned ho
  | failed | aborted => exact ho

/-- An owner makes a second one and steps down. -/
theorem owners_kept_handover : ∃ s : System, s.world.store.activeOwner ⟨10⟩ ⟨1⟩ = false
    ∧ ∃ a, s.world.store.activeOwner ⟨10⟩ a = true := by
  have hrun : (((engine anyCall).serve 100
      (handover ++ [⟨.change_member_role ⟨1⟩ ⟨10⟩ ⟨1⟩ .member, ⟨0, 8⟩⟩])
      (Txn.Engine.idle World.empty)).any fun s =>
        (s.world.store.organization ⟨10⟩).isSome && !s.world.store.activeOwner ⟨10⟩ ⟨1⟩) = true := by
    decide +kernel
  obtain ⟨s, hs, hcheck⟩ := (Option.any_eq_true _ _).mp hrun
  simp only [Bool.and_eq_true, Bool.not_eq_true'] at hcheck
  refine ⟨s, hcheck.2, owners_kept (Txn.Engine.ReachableIn.of_serve ?_ hs) ⟨10⟩ ?_⟩
  · intro s halone t x b p o a hx _ _ t' y m hne hy
    by_cases ht : t = 0
    · cases (halone t' (ht ▸ hne)).symm.trans hy
    · cases (halone t ht).symm.trans hx
  · exact Option.isSome_iff_ne_none.mp hcheck.1

/-! ## A run that loses the owner -/

/-- Call `t` starts and takes `n` actions. -/
def begun (t : ℕ) (q : Request) (n : ℕ) : List (Txn.Move Request) :=
  .start t q :: List.replicate n (.advance t)

/-- With the second owner 3 and the member 4 suspended: 4 starts to reactivate 3, whom it
does not see yet, so that no lock is taken on 3; 4 is reactivated; 3 starts to leave, and
is active nowhere; 3 is reactivated and counts as an owner; 1 steps down; 3 is gone. -/
def racing : List (Txn.Move Request) :=
  begun 1 ⟨.reactivate_member ⟨4⟩ ⟨10⟩ ⟨3⟩, ⟨0, 10⟩⟩ 2
    ++ begun 2 ⟨.reactivate_member ⟨1⟩ ⟨10⟩ ⟨4⟩, ⟨0, 11⟩⟩ 16
    ++ begun 3 ⟨.leave_service ⟨3⟩, ⟨0, 12⟩⟩ 3
    ++ List.replicate 13 (.advance 1)
    ++ begun 4 ⟨.change_member_role ⟨1⟩ ⟨10⟩ ⟨1⟩ .member, ⟨0, 13⟩⟩ 16
    ++ List.replicate 20 (.advance 3)

/-- The active owners of an organization. -/
def active_owners_in (db : Database) (o : OrganizationId) : List ActorId :=
  db.rows.select fun
    | .member o' a, r => if o' = o ∧ r.status = .active ∧ r.role = .owner then some a else none
    | _, _ => none

/-- **An organization without an owner is reachable.** The reactivation sees no row of its target,
takes no lock on it, and goes on; when it commits, the target's departure has already listed the
organizations it has to leave an owner in. -/
theorem owner_lost : ∃ s : System, (engine anyCall).Reachable World.empty s
    ∧ s.world.store.organization ⟨10⟩ ≠ none ∧ ∀ a, s.world.store.activeOwner ⟨10⟩ a = false := by
  have hrun : (((engine anyCall).serve 100
      (handover ++ [⟨.suspend_member ⟨1⟩ ⟨10⟩ ⟨3⟩, ⟨0, 8⟩⟩, ⟨.suspend_member ⟨1⟩ ⟨10⟩ ⟨4⟩, ⟨0, 9⟩⟩])
      (Txn.Engine.idle World.empty)).any fun s => ((engine anyCall).run s racing).any fun s =>
        (s.world.store.organization ⟨10⟩).isSome
          && (active_owners_in s.world.store ⟨10⟩).isEmpty) = true := by
    decide +kernel
  obtain ⟨s₀, hserve, hrest⟩ := (Option.any_eq_true _ _).mp hrun
  obtain ⟨s, hs, hcheck⟩ := (Option.any_eq_true _ _).mp hrest
  simp only [Bool.and_eq_true, List.isEmpty_iff] at hcheck
  refine ⟨s, ?_, Option.isSome_iff_ne_none.mp hcheck.1, ?_⟩
  · have hfirst := (Txn.Engine.ReachableIn.of_serve (fun _ h => h) hserve).reachable
    exact hfirst.trans (Txn.Engine.Steps.of_run _ hs)
  · intro a
    rw [← Bool.not_eq_true]
    intro ha
    obtain ⟨r, hr, hstatus, hrole⟩ := Database.activeOwner_iff.mp ha
    have hmem : a ∈ active_owners_in s.world.store ⟨10⟩ :=
      Txn.Store.mem_select.mpr ⟨.member ⟨10⟩ a, r, hr, by simp [hstatus, hrole]⟩
    rw [hcheck.2] at hmem
    exact List.not_mem_nil hmem

end Fukulow
