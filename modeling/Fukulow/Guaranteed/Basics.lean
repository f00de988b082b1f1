/-
The parts that the proofs of the operations share: how a call ends, the two locks that
open most of them, and what an admitted audit record says about the performer.
-/
import Fukulow.StatementRules

set_option autoImplicit false

namespace Fukulow

open Txn (LockMode)

variable {allowed : Call → Bool} {guarded : Bool} {V : World → Prop}
variable {L : Held} {w : World}

/-- Where a call may return: whatever comes before its commit, the writes are covered and are what
`spec` says. Both parts speak of the state before the commit, which nobody has yet seen when the
last statement is done; this is why the lemmas below ask for every later world. -/
def Ends (allowed : Call → Bool) (guarded : Bool) (V : World → Prop) {α : Type} (c : Call)
    (spec : α → List Write → Database → Prop) (L : Held) (ws : List Write) (a : α)
    (w : World) : Prop :=
  (rules allowed guarded V).Hence L (fun v => Disciplined c L ws v.store ∧ spec a ws v.store) w

/-- No promise about errors. A call that fails writes nothing, and that is all the guarantee needs;
only a repeated message id promises more. -/
def anyError {ε : Type} : Held → ε → World → Prop := fun _ _ _ => True

/-- Every error is fine where nothing is promised of errors. -/
theorem anyError.holds {ε : Type} : ∀ (L : Held) (e : ε) (w : World), anyError L e w :=
  fun _ _ _ => trivial

/-- A call that writes nothing ends within its guarantee, as long as writing nothing is what its
specification allows. -/
theorem Ends.nothing {α : Type} {c : Call} {spec : α → List Write → Database → Prop} {a : α}
    (h : (rules allowed guarded V).Hence L (fun v => spec a [] v.store) w) :
    Ends allowed guarded V c spec L [] a w :=
  fun v hl hv => ⟨Disciplined.nil c L v.store, h v hl hv⟩

/-- A change of one row and its record, on behalf of a member who stays active. Most operations end
like this: what remains to be shown of each is that the row is covered, and that its own
specification follows from the change. -/
theorem Ends.change {α : Type} {c : Call} {spec : α → List Write → Database → Prop} {a : α}
    {k : Key} {x : Option (Row k)} {o : OrganizationId} {p : ActorId} {e : Event}
    (hp : ∀ v, (rules allowed guarded V).Later L w v → V v → v.store.active o p = true)
    (hcov : ∀ v, (rules allowed guarded V).Later L w v → V v → Covered c L v.store k x)
    (hspec : ∀ v, (rules allowed guarded V).Later L w v → V v →
      Change [.put k x, .log ⟨o, p, e⟩] v.store p o e [.put k x] →
      spec a [.put k x, .log ⟨o, p, e⟩] v.store) :
    Ends allowed guarded V c spec L [.put k x, .log ⟨o, p, e⟩] a w :=
  fun v hl hv => ⟨.cons_put (hcov v hl hv) (.cons_log (.nil c L v.store)),
    hspec v hl hv ⟨hp v hl hv, rfl⟩⟩

/-- An inserted row stays new until the commit: nobody else can add it, for the insert has locked
its key. -/
theorem Inserted.new_later {ws : List Write} {k : Key} {r : Row k} {references : List Reference}
    (h : Inserted L ws w k r references) {L' : Held} {v : World} (hL : L ⊆ L')
    (hl : (rules allowed guarded V).Later L' w v) : v.store.rows.get k = none :=
  (frozen_row (hL h.row) (by decide) hl).trans h.new

/-! ## The opening -/

/-- `lock_actor`, then `lock_organization` or an error: the rest runs under the organization's
lock. What `lock_actor` has read is kept by the share lock it took, and is passed on to the rest
with that lock, since some operations need that the actor has not departed. -/
theorem wp_opening {ε α : Type} [FromSql ε] {Q : Held → List Write → α → World → Prop}
    {s : Settings} {a p : ActorId} {o : OrganizationId} {lock : OrganizationLock} {e : ε}
    {rest : Option Bool → Sql ε α}
    (hrest : ∀ (L' : Held) w' departed, V w' → L'.row (.organization o) lock.mode →
      (∀ b, departed = some b → L'.row (.actor a) .share
        ∧ ∃ r, w'.store.actor a = some r ∧ r.deleted_at.isSome = b) →
      (rules allowed guarded V).wp Q anyError (rest departed) L' [] w') :
    (rules allowed guarded V).wp Q anyError (do
      let departed ← (lock_actor s a p : Sql SqlError _)
      if !(← (lock_organization s o lock : Sql SqlError _)) then .throw e
      else rest departed : Sql ε α) L [] w := by
  rw [Txn.Rules.wp_bind, wp_lift]
  refine wp_lock_actor ?_
  -- Whether the actor has departed was read under a lock, and so is still known at `w₂`.
  intro L₁ w₁ departed _ _ _ hdeparted
  rw [Txn.Rules.wp_bind, wp_lift]
  refine wp_lock_organization (fun _ _ _ _ _ => trivial) ?_
  intro L₂ w₂ hL₂ hl₂ hv₂ horg
  refine hrest L₂ w₂ departed hv₂ horg ?_
  intro b hb
  obtain ⟨hrow, r, hr, hdel⟩ := hdeparted b hb
  exact ⟨hL₂ hrow, r, (frozen_row (k := .actor a) hrow (by decide) hl₂).trans hr, hdel⟩

/-! ## Audit records -/

/-- The records that a departing actor may write about itself. -/
def Event.leaving : Event → Bool
  | .member_left _ | .team_member_removed _ _ .leftService | .channel_member_left _ _ => true
  | _ => false

/-- Any other record is admitted only from an active member: the policy of `audit_events` lets only
someone who leaves write about an organization without being one. -/
theorem audit_admits {s : Settings} {db : Database} {o : OrganizationId} {p : ActorId} {e : Event}
    (he : e.leaving = false) (h : audit_events_insert s db ⟨o, p, e⟩ = true) :
    fukulow_active_organizations s db o = true := by
  cases e with
  | member_left a => cases he
  | channel_member_left a c => cases he
  | team_member_removed a t reason =>
      cases reason with
      | leftService => cases he
      | removed =>
          simpa [audit_events_insert, audit_events_insert.left_service, Event.action,
            Event.field, Event.metadata, List.lookup_cons, RemovalReason.as_str] using h
  | _ => simpa [audit_events_insert, Event.action] using h

section Write

variable {p : ActorId} {o : OrganizationId} {tx : Transaction} {e : Event}
variable {F : Held → SqlError → World → Prop}

/-- The record of a change under the organization's lock: its admission shows that the performer is
an active member, at every later world. So an operation need not ask for that itself: the last
statement refuses whoever is none, and the lock keeps the answer. -/
theorem wp_write_locked {ws : List Write} {Q : Held → List Write → Unit → World → Prop}
    (hF : ∀ L e w, F L e w)
    (he : e.leaving = false) (hws : ∀ r, Write.put (.member o p) r ∉ ws)
    (horg : L.row (.organization o) .update)
    (hQ : ∀ L' w', L ⊆ L' → (rules allowed guarded V).Later L w w' → V w' →
      w'.store.active o p = true → Q L' (ws ++ [.log ⟨o, p, e⟩]) () w') :
    (rules allowed guarded V).wp Q F (e.write (begin tx (.actor p)) o p) L ws w := by
  refine wp_event_write hF ?_
  intro w₁ L₂ w₂ hl₁ hv₁ hadm hL₂ hl₂ hv₂ _ _
  refine hQ L₂ w₂ hL₂ (hl₁.trans hl₂) hv₂ ?_
  rw [frozen_active horg hl₂]
  -- The statement saw the call's own writes too, and none of them is of that membership.
  have hseen : (view ws w₁.store).active o p = true := audit_admits he hadm
  rwa [Database.active, Database.member, view_get_of_untouched hws] at hseen

/-- The record of an inserted row: the last statement of the operations that create. The row is
covered by its own lock, by the organization's, and by that of the person it is about, where there
is one. -/
theorem wp_write_inserted {α : Type} {c : Call} {spec : α → List Write → Database → Prop} {a : α}
    {k : Key} {r : Row k} {references : List Reference} (hF : ∀ L e w, F L e w)
    (he : e.leaving = false) (hk : k ≠ .member o p) (horg : L.row (.organization o) .update)
    (ho : tenant k r = some o) (hins : Inserted L [] w k r references)
    (hperson : ∀ b, person k r = some b → L.any (.actor b))
    (hspec : ∀ v, (rules allowed guarded V).Later L w v → V v → v.store.rows.get k = none →
      Change [.put k (some r), .log ⟨o, p, e⟩] v.store p o e [.put k (some r)] →
      spec a [.put k (some r), .log ⟨o, p, e⟩] v.store) :
    (rules allowed guarded V).wp (fun L ws _ w => Ends allowed guarded V c spec L ws a w) F
      (e.write (begin tx (.actor p)) o p) L [.put k (some r)] w := by
  refine wp_write_locked hF he ?_ horg ?_
  · intro x hx
    cases List.mem_singleton.mp hx
    exact hk rfl
  intro L₂ w₂ hL₂ hl₂ hv₂ hp
  have hlater : ∀ v, (rules allowed guarded V).Later L₂ w₂ v →
      (rules allowed guarded V).Later L w v := fun v hl => hl₂.trans (hl.mono hL₂)
  refine Ends.change (fun v hl _ => (frozen_active (hL₂ horg) hl p).trans hp) ?_ ?_
  · intro v hl _
    refine .insert (hL₂ hins.row) (hins.new_later (List.Subset.refl _) (hlater v hl)) ?_ ?_
    · intro o' ho'
      cases ho.symm.trans ho'
      exact ⟨_, hL₂ horg⟩
    · intro b hb
      obtain ⟨m, hm⟩ := hperson b hb
      exact ⟨m, hL₂ hm⟩
  · intro v hl hv hchange
    exact hspec v (hlater v hl) hv (hins.new_later (List.Subset.refl _) (hlater v hl)) hchange

end Write

end Fukulow
