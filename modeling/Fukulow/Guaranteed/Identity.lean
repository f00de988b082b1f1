/-
`operations/identity.rs` and `operations/sessions.rs` meet their guarantees.

New people and new organizations are rows that nobody else can have written: their keys
are locked by the inserts. A session opens under the share lock on its actor, and the key
`sessions.actor_id` keeps the user it references.
-/
import Fukulow.Guaranteed.Basics

set_option autoImplicit false

namespace Fukulow

open Txn (LockMode)

variable {allowed : Call → Bool} {guarded : Bool} {V : World → Prop}
variable {L : Held} {ws : List Write} {w : World} {tx : Transaction} {a : ActorId}

/-- `create_person` ends with both rows of a new person inserted. It is stated for any writes
before it, as an acceptance calls it in the middle of its transaction; that both rows are still new
there is passed on with their locks. -/
theorem wp_create_person {Q : Held → List Write → ActorId → World → Prop} {s : Settings}
    {email password_hash display_name : Text} (hactor : ∀ r, Write.put (.actor a) r ∉ ws)
    (huser : ∀ r, Write.put (.user a) r ∉ ws)
    (hQ : ∀ L' w', L ⊆ L' → (rules allowed guarded V).Later L w w' → V w' →
      L'.row (.actor a) .update → L'.row (.user a) .update → w'.store.actor a = none →
      w'.store.user a = none →
      Q L' (ws ++ [.put (.actor a) (some ⟨.human, some display_name, none⟩)]
        ++ [.put (.user a) (some ⟨email, password_hash⟩)]) a w') :
    (rules allowed guarded V).wp Q anyError
      (create_person s email password_hash display_name a) L ws w := by
  unfold create_person
  rw [Txn.Rules.wp_bind, wp_lift]
  refine wp_insert (fun _ _ _ => trivial) hactor ?_
  intro w₁ L₂ w₂ hl₁ hv₁ hL₂ hl₂ hv₂ _ hins
  rw [Txn.Rules.wp_bind, Txn.Rules.wp_mapError]
  refine wp_insert (fun _ _ _ => trivial) (by simpa using huser) ?_
  intro w₃ L₄ w₄ hl₃ hv₃ hL₄ hl₄ hv₄ _ hins'
  have hlater : (rules allowed guarded V).Later L₂ w₂ w₄ := hl₃.trans hl₄
  exact hQ L₄ w₄ (List.Subset.trans hL₂ hL₄) (hl₁.trans (hl₂.trans (hlater.mono hL₂))) hv₄
    (hL₄ hins.row) hins'.row (hins.new_later (List.Subset.refl _) hlater) hins'.new

/-- **`create_person`** as a call of its own. The locks of the two inserts keep both rows new until
the commit, and the user is covered by the lock on its actor. -/
theorem wp_create_person_alone {c : Call} {s : Settings}
    {email password_hash display_name : Text} :
    (rules allowed guarded V).wp
      (Ends allowed guarded V c fun _ ws db =>
        PersonCreated ws db email password_hash display_name a) anyError
      (create_person s email password_hash display_name a) L [] w := by
  refine wp_create_person (by simp) (by simp) ?_
  intro L₁ w₁ _ _ _ hactor huser hnoactor hnouser v hl _
  have hactor' : v.store.actor a = none :=
    (frozen_row (k := .actor a) hactor (by decide) hl).trans hnoactor
  have huser' : v.store.user a = none :=
    (frozen_row (k := .user a) huser (by decide) hl).trans hnouser
  have hperson : ∀ b, some a = some b → L₁.any (.actor b) := by
    rintro _ ⟨⟩
    exact ⟨_, hactor⟩
  refine ⟨.cons_put ?_ (.cons_put ?_ (.nil c L₁ v.store)), hactor', huser', rfl⟩
  · exact .insert hactor hactor' (by rintro _ ⟨⟩) hperson
  · exact .insert huser huser' (by rintro _ ⟨⟩) hperson

/-- **`create_organization`.** Four statements write, and each may come long after the one before.
The organization and the membership stay new for the locks of their inserts, and the creator has
not departed for the share lock of `lock_actor`. -/
theorem wp_create_organization {c : Call} {name slug : Text} {o : OrganizationId} :
    (rules allowed guarded V).wp
      (Ends allowed guarded V c fun _ ws db => OrganizationCreated ws db a name slug o) anyError
      (create_organization tx a name slug o) L [] w := by
  unfold create_organization
  rw [Txn.Rules.wp_bind, wp_lift]
  refine wp_lock_actor ?_
  intro L₁ w₁ departed _ _ hv₁ hdeparted
  split
  case h_1 => trivial
  case h_2 => trivial
  case h_3 =>
    obtain ⟨hshare, r, hr, hdel⟩ := hdeparted false rfl
    rw [Txn.Rules.wp_bind, Txn.Rules.wp_mapError]
    refine wp_insert (fun _ _ _ => trivial) (by simp) ?_
    intro w₂ L₃ w₃ hl₂ hv₂ hL₃ hl₃ hv₃ _ horg
    rw [Txn.Rules.wp_bind, wp_lift]
    refine wp_insert (fun _ _ _ => trivial) (by simp) ?_
    intro w₄ L₅ w₅ hl₄ hv₄ hL₅ hl₅ hv₅ _ hmember
    rw [Txn.Rules.wp_bind, wp_lift]
    refine wp_event_write (fun _ _ _ => trivial) ?_
    intro w₆ L₇ w₇ hl₆ hv₆ _ hL₇ hl₇ hv₇ _ _
    rw [Txn.Rules.wp_bind, wp_lift]
    refine wp_event_write (fun _ _ _ => trivial) ?_
    intro w₈ L₉ w₉ hl₈ hv₈ _ hL₉ hl₉ hv₉ _ _ v hl _
    -- From the commit back to each of the statements whose locks are needed.
    have hL₅₉ : L₅ ⊆ L₉ := List.Subset.trans hL₇ hL₉
    have hlater₇ : (rules allowed guarded V).Later L₇ w₇ v :=
      hl₈.trans (hl₉.trans (hl.mono hL₉))
    have hlater₅ : (rules allowed guarded V).Later L₅ w₅ v :=
      hl₆.trans (hl₇.trans (hlater₇.mono hL₇))
    have hlater₃ : (rules allowed guarded V).Later L₃ w₃ v :=
      hl₄.trans (hl₅.trans (hlater₅.mono hL₅))
    have hlater₁ : (rules allowed guarded V).Later L₁ w₁ v :=
      hl₂.trans (hl₃.trans (hlater₃.mono hL₃))
    have hnewo : v.store.organization o = none := horg.new_later (List.Subset.refl _) hlater₃
    have hnewm : v.store.member o a = none := hmember.new_later (List.Subset.refl _) hlater₅
    have horg₉ : L₉.row (.organization o) .update := hL₅₉ (hL₅ horg.row)
    have htenant : ∀ o', some o = some o' → L₉.any (.organization o') := by
      rintro _ ⟨⟩
      exact ⟨_, horg₉⟩
    refine ⟨.cons_put ?_ (.cons_put ?_ (.cons_log (.cons_log (.nil c L₉ v.store)))),
      hnewo, hnewm, ⟨r, ?_, by simpa using hdel⟩, rfl⟩
    · exact .insert horg₉ hnewo htenant (by rintro _ ⟨⟩)
    · refine .insert (hL₅₉ hmember.row) hnewm htenant ?_
      rintro _ ⟨⟩
      exact ⟨_, hL₅₉ (hmember.references ⟨.actor a, fun _ => true⟩ (by simp)).1⟩
    · exact (frozen_row (k := .actor a) hshare (by decide) hlater₁).trans hr

end Fukulow
