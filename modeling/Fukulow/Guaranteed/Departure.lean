/-
`leave_service` meets its guarantee: each of its statements brings the departure to the
next stage, and the last stage covers everything about the person.
-/
import Fukulow.Guaranteed.Leaving

set_option autoImplicit false

namespace Fukulow

open Txn (LockMode)

variable {allowed : Call → Bool} {guarded : Bool} {V : World → Prop}
variable {L L' : Held} {ws : List Write} {w w' : World} {tx : Transaction} {a : ActorId}
variable {o : OrganizationId} {st : Stage} {F : Held → SqlError → World → Prop}

/-! ## What the departing actor reads

The self branches of the policies show an actor everything about itself. -/

@[simp] theorem begin_actor (tx : Transaction) (a : ActorId) :
    (begin tx (.actor a)).actor_id = some a := rfl

/-- The `DELETE FROM team_members` finds every team membership of the actor in the organization:
the policies on that table ask a person's own rows for nothing more. -/
theorem mem_teams_of {db : Database} {t : TeamId} :
    t ∈ teams_of (begin tx (.actor a)) db o a ↔
      ∃ r, db.teamMember t a = some r ∧ r.organization_id = o := by
  rw [teams_of, Txn.Store.mem_select]
  constructor
  · rintro ⟨k, r, hr, hread⟩
    cases k with
    | teamMember t' b =>
        simp only [Option.ite_none_right_eq_some, Option.some.injEq] at hread
        obtain ⟨⟨rfl, ho, -⟩, rfl⟩ := hread
        exact ⟨r, hr, ho⟩
    | _ => cases hread
  · rintro ⟨r, hr, ho⟩
    exact ⟨.teamMember t a, r, hr, by simp [ho, team_members_select, team_members_delete]⟩

/-- The listings read by `leave_channels` are all of the actor's in the organization. Nobody loses
sight of an own listing, so one in an organization it never belonged to is read too. -/
theorem mem_listings {db : Database} {c : ChannelId} :
    c ∈ listings (begin tx (.actor a)) db o a ↔
      ∃ r, db.channelMember c a = some r ∧ r.organization_id = o := by
  rw [listings, Txn.Store.mem_selectSorted]
  constructor
  · rintro ⟨k, r, hr, hread⟩
    cases k with
    | channelMember c' b =>
        simp only [Option.ite_none_right_eq_some, Option.some.injEq] at hread
        obtain ⟨⟨rfl, ho, -⟩, rfl⟩ := hread
        exact ⟨r, hr, ho⟩
    | _ => cases hread
  · rintro ⟨r, hr, ho⟩
    exact ⟨.channelMember c a, r, hr, by simp [ho, channel_members_select]⟩

/-- The organizations enumerated for the channels are those that hold some listing of the actor,
not those it is a member of: this is what lets a departure reach the outside listings. -/
theorem mem_listing_organizations {db : Database} :
    o ∈ listing_organizations (begin tx (.actor a)) db a ↔
      ∃ c r, db.channelMember c a = some r ∧ r.organization_id = o := by
  rw [listing_organizations, Txn.Store.mem_selectSorted]
  constructor
  · rintro ⟨k, r, hr, hread⟩
    cases k with
    | channelMember c b =>
        simp only [Option.ite_none_right_eq_some, Option.some.injEq] at hread
        obtain ⟨⟨rfl, -⟩, ho⟩ := hread
        exact ⟨c, r, hr, ho⟩
    | _ => cases hread
  · rintro ⟨c, r, hr, ho⟩
    exact ⟨.channelMember c a, r, hr, by simp [ho, channel_members_select]⟩

/-- The memberships enumerated are all of the actor's, whatever their status. The owner checks, by
contrast, are made for the active ones only. -/
theorem mem_memberships_of (tx : Transaction) {db : Database} {status : MemberStatus} :
    (o, status) ∈ memberships_of (begin tx (.actor a)) db a ↔
      ∃ r, db.member o a = some r ∧ r.status = status := by
  rw [memberships_of, List.mem_filterMap]
  constructor
  · rintro ⟨o', -, hread⟩
    obtain ⟨r, hr, hpair⟩ := Option.map_eq_some_iff.mp hread
    cases hpair
    exact ⟨r, hr, rfl⟩
  · rintro ⟨r, hr, rfl⟩
    refine ⟨o, Txn.Store.mem_selectSorted.mpr ⟨.member o a, r, hr, ?_⟩, by simp [hr]⟩
    simp [organization_members_select]

/-- Each membership is listed once. The rounds of the loops rely on it: a round starts from a stage
that has not come to its organization yet. -/
theorem nodup_memberships_of (s : Settings) (db : Database) (a : ActorId) :
    ((memberships_of s db a).map Prod.fst).Nodup := by
  have hsub : ∀ os : List OrganizationId, List.Sublist
      ((os.filterMap fun o => (db.member o a).map fun r => (o, r.status)).map Prod.fst) os := by
    intro os
    induction os with
    | nil => exact .slnil
    | cons o os ih =>
        rw [List.filterMap_cons]
        cases db.member o a with
        | none => exact ih.cons o
        | some r => exact ih.cons_cons o
  exact (Txn.Store.nodup_selectSorted db.rows _).sublist (hsub _)

/-- The organizations that are locked are exactly those where the actor is active. The policy on
`organizations` shows a row to its active members, which is no further condition here. -/
theorem mem_active_memberships {db : Database} :
    o ∈ active_memberships (begin tx (.actor a)) db a ↔ db.active o a = true := by
  rw [active_memberships, Txn.Store.mem_selectSorted]
  constructor
  · rintro ⟨k, r, hr, hread⟩
    cases k with
    | member o' b =>
        simp only [Option.ite_none_right_eq_some, Option.some.injEq] at hread
        obtain ⟨⟨rfl, hstatus, -⟩, rfl⟩ := hread
        exact Database.active_iff.mpr ⟨r, hr, hstatus⟩
    | _ => cases hread
  · intro hact
    obtain ⟨r, hr, hstatus⟩ := Database.active_iff.mp hact
    refine ⟨.member o a, r, hr, ?_⟩
    simp [hstatus, organization_members_select, organizations_select, organizations_update, hact]

/-! ## Team memberships -/

/-- `leave_organization` deletes the person's team memberships in the organization, and records
each. Those found are those there are at the end: a row that is there now was there before, since
the actor lock lets no row about the person in, and no earlier round has written it. -/
theorem wp_leave_organization {Q : Held → List Write → Unit → World → Prop}
    (hF : ∀ L e w, F L e w) (h : Progress tx.now a st L ws w) (ho : o ∉ st.organizations)
    (hQ : ∀ L' w' ts, L ⊆ L' → (rules allowed guarded V).Later L w w' → V w' →
      (rules allowed guarded V).Hence L' (fun v => ∀ t, t ∈ ts ↔
        ∃ r, v.store.teamMember t a = some r ∧ r.organization_id = o) w' →
      (∀ t ∈ ts, L'.row (.teamMember t a) .update) →
      Q L' (ws ++ deletions (fun t => .teamMember t a) ts
        ++ ts.map fun t => .log ⟨o, a, .team_member_removed a t .leftService⟩) () w') :
    (rules allowed guarded V).wp Q F (leave_organization (begin tx (.actor a)) o a) L ws w := by
  unfold leave_organization
  rw [Txn.Rules.wp_bind]
  refine wp_delete_where ?_ ?_ ?_ ?_
  · intro db db' t hget
    simp only [hget]
  · intro db
    refine (Txn.Store.nodup_select _ _).map ?_
    intro t t' heq
    exact (Key.teamMember.inj heq).1
  · intro w₁ hl₁ _ t ht
    obtain ⟨r, hr, -⟩ := mem_teams_of.mp ht
    exact ((h.later (List.Subset.refl _) hl₁).seen (k := .teamMember t a) hr fun _ => rfl).1
  · intro w₁ L₂ w₂ hl₁ hv₁ hL₂ hl₂ hv₂ hrows
    have h₁ := h.later (List.Subset.refl _) hl₁
    -- A row found and deleted is locked; a row there now was there, unwritten, to be found.
    -- So the `RETURNING` list, which the records are made from, misses none.
    have hts : (rules allowed guarded V).Hence L₂ (fun v => ∀ t,
        t ∈ (teams_of (begin tx (.actor a)) (view ws w₁.store) o a).filter (fun t =>
          (w₂.store.teamMember t a).any fun r => r.organization_id = o) ↔
        ∃ r, v.store.teamMember t a = some r ∧ r.organization_id = o) w₂ := by
      intro v hl _ t
      rw [List.mem_filter, Option.any_eq_true]
      constructor
      · rintro ⟨hfound, r, hr, hro⟩
        have hrow : L₂.row (.teamMember t a) .update := hrows t hfound
        exact ⟨r, (frozen_row (k := .teamMember t a) hrow (by decide) hl).trans hr,
          by simpa using hro⟩
      · rintro ⟨r, hr, rfl⟩
        obtain ⟨y, hy, -, hty⟩ :=
          frozen_person (k := .teamMember t a) (hL₂ h.actor) hl hr rfl
        obtain ⟨z, hz, -, htz⟩ := frozen_person (k := .teamMember t a) h.actor hl₂ hy rfl
        have hzo : z.organization_id = r.organization_id := Option.some.inj (htz.trans hty)
        refine ⟨mem_teams_of.mpr ⟨z, ?_, hzo⟩, y, hy, by simpa using Option.some.inj hty⟩
        refine (view_get_of_untouched (h₁.unreached ?_)).trans hz
        rintro x hx - ⟨o', ho', hxo⟩
        cases hz.symm.trans hx
        cases hxo
        exact ho (hzo ▸ ho')
    refine wp_event_writes hF hv₂ ?_
    intro L₃ w₃ hL₃ hl₃ hv₃ _
    refine hQ L₃ w₃ _ (List.Subset.trans hL₂ hL₃) (hl₁.trans (hl₂.trans (hl₃.mono hL₂))) hv₃
      (hts.later hL₃ hl₃) ?_
    intro t ht
    exact hL₃ (hrows t (List.mem_of_mem_filter ht))

/-- One round of the membership loop: the stage gains the organization. A membership in a departure
is never listed as left, so the status test passes and `member_left` is recorded in every round. -/
theorem wp_leave_membership {ε : Type} [FromSql ε] {Q : Held → List Write → Unit → World → Prop}
    {status : MemberStatus} (h : Progress tx.now a st L ws w) (ho : o ∉ st.organizations)
    (hstatus : status ≠ .left) (hmember : ∃ r, w.store.member o a = some r)
    (hQ : ∀ L' ws' w', L ⊆ L' → (rules allowed guarded V).Later L w w' → V w' →
      Progress tx.now a { st with organizations := st.organizations ++ [o] } L' ws' w' →
      L'.any (.organization o) → Q L' ws' () w') :
    (rules allowed guarded V).wp Q anyError (do
      (leave_organization (begin tx (.actor a)) o a : Sql SqlError Unit)
      if status ≠ .left then
        ((Event.member_left a).write (begin tx (.actor a)) o a : Sql SqlError Unit) :
      Sql ε Unit) L ws w := by
  rw [Txn.Rules.wp_bind, wp_lift]
  refine wp_leave_organization (fun _ _ _ => trivial) h ho ?_
  intro L₁ w₁ ts hL₁ hl₁ hv₁ hts hrows
  rw [if_pos hstatus, wp_lift]
  refine wp_event_write (fun _ _ _ => trivial) ?_
  intro w₂ L₃ w₃ hl₂ hv₂ _ hL₃ hl₃ hv₃ horg _
  have hlater : (rules allowed guarded V).Later L₁ w₁ w₃ := hl₂.trans hl₃
  have hts₃ := hts w₃ hlater hv₃
  have hL₁₃ : L ⊆ L₃ := List.Subset.trans hL₁ hL₃
  have hl : (rules allowed guarded V).Later L w w₃ := hl₁.trans (hlater.mono hL₁)
  refine hQ L₃ _ w₃ hL₁₃ hl hv₃ ?_ ⟨_, horg⟩
  rw [List.append_assoc, List.append_assoc]
  -- This round's rows are the team memberships of `o`, its records are those and the leaving.
  refine (h.later hL₁₃ hl).extend (fun k t => (∃ tm b, k = .teamMember tm b) ∧ t = some o)
    (fun o' e => o' = o ∧ ((∃ b t r, e = .team_member_removed b t r)
      ∨ ∃ b, e = .member_left b)) ?_ ?_ ?_ ?_ ?_
  · intro k x _
    cases k <;> simp [Stage.reached, or_and_right, exists_or]
  · intro o' e
    cases e <;> simp [Stage.recorded]
  · intro k r
    simp only [List.mem_append, deletions, List.mem_map, List.mem_singleton, reduceCtorEq,
      and_false, exists_false, or_false]
    constructor
    · rintro ⟨t, ht, heq⟩
      cases heq
      obtain ⟨x, hx, hxo⟩ := (hts₃ t).mp ht
      exact ⟨x, hx, rfl, ⟨⟨t, a, rfl⟩, congrArg some hxo⟩, rfl⟩
    · rintro ⟨x, hx, hp, ⟨⟨t, b, rfl⟩, hxo⟩, rfl⟩
      cases hp
      exact ⟨t, (hts₃ t).mpr ⟨x, hx, Option.some.inj hxo⟩, rfl⟩
  · rintro k x hx hp ⟨⟨t, b, rfl⟩, hxo⟩
    cases hp
    have hrow : L₃.row (.teamMember t a) .update :=
      hL₃ (hrows t ((hts₃ t).mpr ⟨x, hx, Option.some.inj hxo⟩))
    refine ⟨⟨.update, by decide, hrow⟩, fun _ => hrow, ?_⟩
    intro o' ho'
    cases hxo.symm.trans ho'
    exact ⟨_, horg⟩
  · intro row
    obtain ⟨r, hr⟩ := hmember
    obtain ⟨r', hr', -, -⟩ := persists (k := .member o a) (.inl rfl) hr hl
    simp only [List.mem_append, deletions, List.mem_map, List.mem_singleton, Write.log.injEq,
      reduceCtorEq, and_false, exists_false, false_or]
    constructor
    · rintro (⟨t, ht, rfl⟩ | rfl)
      · exact ⟨rfl, ⟨rfl, .inl ⟨a, t, _, rfl⟩⟩, rfl, rfl, (hts₃ t).mp ht⟩
      · exact ⟨rfl, ⟨rfl, .inr ⟨a, rfl⟩⟩, rfl, r', hr'⟩
    · obtain ⟨ro, ra, e⟩ := row
      rintro ⟨rfl, ⟨rfl, ⟨b, t, reason, rfl⟩ | ⟨b, rfl⟩⟩, hrec⟩
      · obtain ⟨rfl, rfl, hrow⟩ := hrec
        exact .inl ⟨t, (hts₃ t).mpr hrow, rfl⟩
      · obtain ⟨rfl, -⟩ := hrec
        exact .inr rfl

/-! ## Channel listings -/

/-- Nobody else adds or removes a listing of the departing actor: whatever it has written
meanwhile, it reads the listings that there are and will be. Both the records and the `DELETE` of a
round use this, so they speak of the same listings though the two statements read apart. -/
theorem Progress.sees_listings (h : Progress tx.now a st L ws w) (ho : o ∉ st.channels)
    {vs : List Write} (hvs : ∀ c x, Write.put (.channelMember c a) x ∉ vs)
    (hl : (rules allowed guarded V).Later L w w') {c : ChannelId} :
    c ∈ listings (begin tx (.actor a)) (view (ws ++ vs) w.store) o a ↔
      ∃ r, w'.store.channelMember c a = some r ∧ r.organization_id = o := by
  rw [mem_listings, view_append, Database.channelMember, view_get_of_untouched (hvs c)]
  constructor
  · rintro ⟨r, hr, hro⟩
    obtain ⟨y, hy, hty, -⟩ := kept_person (k := .channelMember c a) h.actor (by simp)
      (h.seen hr fun _ => rfl).2 rfl hl
    exact ⟨y, hy, (Option.some.inj hty).trans hro⟩
  · rintro ⟨r, hr, rfl⟩
    obtain ⟨y, hy, -, hty⟩ := frozen_person (k := .channelMember c a) h.actor hl hr rfl
    have hyo : y.organization_id = r.organization_id := Option.some.inj hty
    refine ⟨y, (view_get_of_untouched (h.unreached ?_)).trans hy, hyo⟩
    rintro x hx - ⟨o', ho', hxo⟩
    cases hy.symm.trans hx
    cases hxo
    exact ho (hyo ▸ ho')

/-- The `DELETE` of `leave_channels`, after the records `vs`: it removes the listings that there
are, and holds a lock on each of them. The records come first, as the source's comment asks, and
touch no listing. -/
theorem wp_delete_listings {Q : Held → List Write → List ChannelId → World → Prop}
    (h : Progress tx.now a st L ws w) (ho : o ∉ st.channels)
    {vs : List Write} (hvs : ∀ c x, Write.put (.channelMember c a) x ∉ vs)
    (hQ : ∀ L' w' cs, L ⊆ L' → (rules allowed guarded V).Later L w w' → V w' →
      (∀ c, c ∈ cs ↔ ∃ r, w'.store.channelMember c a = some r ∧ r.organization_id = o) →
      (∀ c ∈ cs, L'.row (.channelMember c a) .update) →
      Q L' (ws ++ vs ++ deletions (fun c => .channelMember c a) cs) cs w') :
    (rules allowed guarded V).wp Q F (delete_where
      (fun db => (listings (begin tx (.actor a)) db o a).filter fun c =>
        channel_members_delete (begin tx (.actor a)) db c a)
      (fun channel => .channelMember channel a)
      fun db channel => (db.channelMember channel a).any fun r => r.organization_id = o)
      L (ws ++ vs) w := by
  refine wp_delete_where ?_ ?_ ?_ ?_
  · intro db db' c hget
    simp only [hget]
  · intro db
    refine ((Txn.Store.nodup_selectSorted _ _).filter _).map ?_
    intro c c' heq
    exact (Key.channelMember.inj heq).1
  · intro w₁ hl₁ _ c hc r hmem
    obtain ⟨x, hx, -⟩ := mem_listings.mp (List.mem_of_mem_filter hc)
    rw [view_append, Database.channelMember, view_get_of_untouched (hvs c)] at hx
    obtain hmem | hmem := List.mem_append.mp hmem
    · exact ((h.later (List.Subset.refl _) hl₁).seen (k := .channelMember c a) hx
        fun _ => rfl).1 r hmem
    · exact hvs c r hmem
  · -- What was listed and still matches is what is there at the end.
    intro w₁ L₂ w₂ hl₁ _ hL₂ hl₂ hv₂ hrows
    have hlisted : ∀ c, _ ↔ _ := fun c =>
      (h.later (List.Subset.refl _) hl₁).sees_listings ho hvs hl₂ (c := c)
    have hcs : ∀ c, c ∈ ((listings (begin tx (.actor a)) (view (ws ++ vs) w₁.store) o a).filter
        fun c => channel_members_delete (begin tx (.actor a)) (view (ws ++ vs) w₁.store) c a).filter
          (fun c => (w₂.store.channelMember c a).any fun r => r.organization_id = o) ↔
        ∃ r, w₂.store.channelMember c a = some r ∧ r.organization_id = o := by
      intro c
      rw [List.mem_filter, List.mem_filter, hlisted c]
      simp [channel_members_delete, Option.any_eq_true]
    refine hQ L₂ w₂ _ hL₂ (hl₁.trans hl₂) hv₂ hcs ?_
    intro c hc
    exact hrows c (List.mem_of_mem_filter hc)

/-- `leave_channels`: one round of the listing loop. Its two statements, the reading of the
listings and their `DELETE`, agree by `Progress.sees_listings`, so each row that goes has its
record and the other way round. -/
theorem wp_leave_channels {Q : Held → List Write → Unit → World → Prop}
    (hF : ∀ L e w, F L e w) (h : Progress tx.now a st L ws w) (ho : o ∉ st.channels)
    (hQ : ∀ L' ws' w', L ⊆ L' → (rules allowed guarded V).Later L w w' → V w' →
      Progress tx.now a { st with channels := st.channels ++ [o] } L' ws' w' → Q L' ws' () w') :
    (rules allowed guarded V).wp Q F (leave_channels (begin tx (.actor a)) o a) L ws w := by
  unfold leave_channels
  rw [Txn.Rules.wp_bind, wp_select]
  intro w₁ hl₁ hv₁
  have h₁ := h.later (List.Subset.refl _) hl₁
  have hlisted : ∀ {v : World}, (rules allowed guarded V).Later L w₁ v → ∀ c,
      c ∈ listings (begin tx (.actor a)) (view ws w₁.store) o a ↔
        ∃ r, v.store.channelMember c a = some r ∧ r.organization_id = o := by
    intro v hl c
    have hnone : ∀ c x, Write.put (.channelMember c a) x ∉ ([] : List Write) := by simp
    have hseen := h₁.sees_listings ho hnone hl (c := c)
    rwa [List.append_nil] at hseen
  generalize listings (begin tx (.actor a)) (view ws w₁.store) o a = cs at hlisted ⊢
  rw [Txn.Rules.wp_bind]
  refine wp_event_writes hF hv₁ ?_
  intro L₂ w₂ hL₂ hl₂ hv₂ horg
  rw [Txn.Rules.wp_bind]
  refine wp_delete_listings (h₁.later hL₂ hl₂) ho (by simp) ?_
  intro L₃ w₃ ds hL₃ hl₃ hv₃ hds hrows
  have hL : L ⊆ L₃ := List.Subset.trans hL₂ hL₃
  have hl : (rules allowed guarded V).Later L w₁ w₃ := hl₂.trans (hl₃.mono hL₂)
  have hcs := hlisted hl
  refine hQ L₃ _ w₃ hL (hl₁.trans hl) hv₃ ?_
  rw [List.append_assoc]
  -- This round's rows are the listings in `o`, with one record for each of them.
  refine (h₁.later hL hl).extend
    (fun k t => (∃ c b, k = .channelMember c b) ∧ t = some o)
    (fun o' e => o' = o ∧ ∃ b c, e = .channel_member_left b c) ?_ ?_ ?_ ?_ ?_
  · intro k x _
    cases k <;> simp [Stage.reached, or_and_right, exists_or]
  · intro o' e
    cases e <;> simp [Stage.recorded]
  · intro k r
    simp only [List.mem_append, deletions, List.mem_map, reduceCtorEq, and_false, exists_false,
      false_or]
    constructor
    · rintro ⟨c, hc, heq⟩
      cases heq
      obtain ⟨x, hx, hxo⟩ := (hds c).mp hc
      exact ⟨x, hx, rfl, ⟨⟨c, a, rfl⟩, congrArg some hxo⟩, rfl⟩
    · rintro ⟨x, hx, hp, ⟨⟨c, b, rfl⟩, hxo⟩, rfl⟩
      cases hp
      exact ⟨c, (hds c).mpr ⟨x, hx, Option.some.inj hxo⟩, rfl⟩
  · rintro k x hx hp ⟨⟨c, b, rfl⟩, hxo⟩
    cases hp
    have hrow : L₃.row (.channelMember c a) .update :=
      hrows c ((hds c).mpr ⟨x, hx, Option.some.inj hxo⟩)
    refine ⟨⟨.update, by decide, hrow⟩, fun _ => hrow, ?_⟩
    intro o' ho'
    cases hxo.symm.trans ho'
    have hc : c ∈ cs := (hcs c).mpr ⟨x, hx, Option.some.inj hxo⟩
    exact ⟨_, hL₃ (horg (List.ne_nil_of_mem hc))⟩
  · intro row
    simp only [List.mem_append, deletions, List.mem_map, Write.log.injEq, reduceCtorEq, and_false,
      exists_false, or_false]
    constructor
    · rintro ⟨c, hc, rfl⟩
      exact ⟨rfl, ⟨rfl, a, c, rfl⟩, rfl, (hcs c).mp hc⟩
    · obtain ⟨ro, ra, e⟩ := row
      rintro ⟨rfl, ⟨rfl, b, c, rfl⟩, rfl, hrow⟩
      exact ⟨c, (hcs c).mpr hrow, rfl⟩

/-! ## The rows of the person -/

/-- One more write, of the one row `k`, and no record: how the two `UPDATE`s of a departure extend
its stage. -/
theorem Progress.extend_put {st' : Stage} {now : Instant} (h : Progress now a st L ws w)
    {k : Key} {x : Row k}
    (hx : w.store.rows.get k = some x) (hp : person k x = some a)
    (hreached : ∀ k' y, person k' y = some a →
      (st'.reached k' (tenant k' y) ↔ st.reached k' (tenant k' y) ∨ k' = k))
    (hrecorded : ∀ o e, st'.recorded o e ↔ st.recorded o e)
    (hlocks : DepartureLocks now L k x) :
    Progress now a st' L (ws ++ [.put k (departing now k x)]) w := by
  refine h.extend (fun k' _ => k' = k) (fun _ _ => False) hreached
    (fun o e => by simp [hrecorded]) ?_ ?_ ?_
  · intro k' r
    rw [List.mem_singleton]
    constructor
    · intro heq
      cases heq
      exact ⟨x, hx, hp, rfl, rfl⟩
    · rintro ⟨y, hy, -, rfl, rfl⟩
      cases hx.symm.trans hy
      rfl
  · rintro k' y hy - rfl
    cases hx.symm.trans hy
    exact hlocks
  · intro row
    simp

/-- One round of the loop that closes the memberships. The row is found, since nobody deletes a
membership and a person sees its own; an `UPDATE` that matched nothing would not fail, so this has
to be shown. -/
theorem wp_close_membership {Q : Held → List Write → Unit → World → Prop}
    (hF : ∀ L e w, F L e w) (h : Progress tx.now a st L ws w) (ho : o ∉ st.memberships)
    (hmember : ∃ r, w.store.member o a = some r) (horg : L.any (.organization o))
    (hQ : ∀ L' ws' w', L ⊆ L' → (rules allowed guarded V).Later L w w' → V w' →
      Progress tx.now a { st with memberships := st.memberships ++ [o] } L' ws' w' →
      Q L' ws' () w') :
    (rules allowed guarded V).wp Q F (update_member (begin tx (.actor a)) o a fun r =>
      { r with status := .left, display_name := none }) L ws w := by
  obtain ⟨r, hr⟩ := hmember
  have hthere : ∀ v, (rules allowed guarded V).Later L w v → ∃ x, v.store.member o a = some x := by
    intro v hl
    obtain ⟨x, hx, -, -⟩ := persists (k := .member o a) (.inl rfl) hr hl
    exact ⟨x, hx⟩
  unfold update_member
  rw [Txn.Rules.wp_bind]
  refine wp_update hF (h.unreached fun _ _ _ => ho) ?_ ?_
  · -- The person sees its own membership, so the update does not miss it.
    intro w₁ L₂ w₂ hl₁ _ _ hl₂ _ hmiss
    obtain ⟨x₁, hx₁⟩ := hthere w₁ hl₁
    obtain ⟨x₂, hx₂⟩ := hthere w₂ (hl₁.trans hl₂)
    have := hmiss x₁ hx₁ (by simp [organization_members_select, organization_members_update_using])
      x₂ hx₂
    cases this
  · intro w₁ L₂ w₂ old new hl₁ _ hL₂ hl₂ hv₂ hrow hold _ hset
    dsimp only at hset
    split at hset
    case isFalse => cases hset
    case isTrue =>
      cases hset
      have hl := hl₁.trans hl₂
      refine hQ L₂ _ w₂ hL₂ hl hv₂ ?_
      refine (h.later hL₂ hl).extend_put (k := .member o a) hold rfl ?_ ?_ ?_
      · intro k y hy
        cases k with
        | member o' b =>
            cases hy
            simp [Stage.reached]
        | _ => simp [Stage.reached]
      · intro o' e
        cases e <;> rfl
      · refine ⟨⟨_, by decide, hrow⟩, (by rintro ⟨⟩), ?_⟩
        intro o' ho'
        cases ho'
        obtain ⟨m, hm⟩ := horg
        exact ⟨m, hL₂ hm⟩

/-- `DELETE FROM users`: the user goes if there is one. A person without a user can depart too, and
the cascade below then has nothing to do. -/
theorem wp_delete_own_user {Q : Held → List Write → List ActorId → World → Prop}
    (h : Progress tx.now a st L ws w) (hst : st.user = false)
    (hQ : ∀ L' w' ds, L ⊆ L' → (rules allowed guarded V).Later L w w' → V w' →
      (∀ b, b ∈ ds ↔ b = a ∧ ∃ u, w'.store.user a = some u) →
      Progress tx.now a { st with user := true } L' (ws ++ deletions Key.user ds) w' →
      Q L' (ws ++ deletions Key.user ds) ds w') :
    (rules allowed guarded V).wp Q F (delete_where
      (fun db => if (db.user a).any fun r => users_select (begin tx (.actor a)) a r
        && users_delete (begin tx (.actor a)) a then [a] else [])
      Key.user fun db b => (db.user b).isSome) L ws w := by
  -- This stage is the first to write the user.
  have hunreached : ∀ r, Write.put (.user a) r ∉ ws := by
    refine h.unreached ?_
    rintro _ - - hreached
    simp [Stage.reached, hst] at hreached
  refine wp_delete_where ?_ ?_ ?_ ?_
  · intro db db' b hget
    simp only [hget]
  · intro db
    split <;> simp
  · intro w₁ _ _ b hb
    split at hb
    case isFalse => exact absurd hb List.not_mem_nil
    case isTrue => exact List.mem_singleton.mp hb ▸ hunreached
  intro w₁ L₂ w₂ hl₁ _ hL₂ hl₂ hv₂ hrows
  have hl := hl₁.trans hl₂
  -- The policies show a person its own user, so what is found is what is stored.
  have hcond : ((view ws w₁.store).user a).any (fun r => users_select (begin tx (.actor a)) a r
      && users_delete (begin tx (.actor a)) a) = (w₁.store.user a).isSome := by
    have hsame : (view ws w₁.store).user a = w₁.store.user a := view_get_of_untouched hunreached
    rw [hsame]
    cases w₁.store.user a <;> simp [users_select, users_delete]
  have hds : ∀ b, b ∈ (if ((view ws w₁.store).user a).any (fun r =>
      users_select (begin tx (.actor a)) a r && users_delete (begin tx (.actor a)) a) = true
        then [a] else []).filter (fun b => (w₂.store.user b).isSome) ↔
      b = a ∧ ∃ u, w₂.store.user a = some u := by
    intro b
    rw [hcond, List.mem_filter]
    constructor
    · rintro ⟨hb, hsome⟩
      split at hb
      case isFalse => exact absurd hb List.not_mem_nil
      case isTrue =>
        cases List.mem_singleton.mp hb
        exact ⟨rfl, Option.isSome_iff_exists.mp hsome⟩
    · rintro ⟨rfl, u, hu⟩
      obtain ⟨u', hu', -, -⟩ := frozen_person (k := .user b) h.actor hl₂ hu rfl
      have hsome : (w₁.store.user b).isSome = true := Option.isSome_iff_exists.mpr ⟨u', hu'⟩
      rw [if_pos hsome]
      exact ⟨List.mem_singleton_self b, Option.isSome_iff_exists.mpr ⟨u, hu⟩⟩
  refine hQ L₂ w₂ _ hL₂ hl hv₂ hds ?_
  refine (h.later hL₂ hl).extend (fun k _ => k = .user a)
    (fun _ _ => False) ?_ (by intro o e; cases e <;> simp [Stage.recorded]) ?_ ?_ ?_
  · intro k x hp
    cases k with
    | user b =>
        cases hp
        simp [Stage.reached]
    | _ => simp [Stage.reached]
  · intro k r
    simp only [deletions, List.mem_map]
    constructor
    · rintro ⟨b, hb, heq⟩
      obtain ⟨rfl, u, hu⟩ := (hds b).mp hb
      cases heq
      exact ⟨u, hu, rfl, rfl, rfl⟩
    · rintro ⟨x, hx, -, rfl, rfl⟩
      exact ⟨a, (hds a).mpr ⟨rfl, x, hx⟩, rfl⟩
  · rintro k x hx - rfl
    have hrow : L₂.row (.user a) .update :=
      hrows a (List.mem_of_mem_filter ((hds a).mpr ⟨rfl, x, hx⟩))
    exact ⟨⟨_, by decide, hrow⟩, fun _ => hrow, by rintro _ ⟨⟩⟩
  · intro row
    simp [deletions]

/-- The cascade finds a session by its actor alone; no policy is asked for what a foreign key
removes. -/
theorem mem_own_sessions {db : Database} {i : SessionId} :
    (i ∈ db.rows.select fun
      | .session i, r => if r.actor_id = a then some i else none
      | _, _ => none) ↔ ∃ r, db.session i = some r ∧ r.actor_id = a := by
  rw [Txn.Store.mem_select]
  constructor
  · rintro ⟨k, r, hr, hread⟩
    cases k with
    | session i' =>
        simp only [Option.ite_none_right_eq_some, Option.some.injEq] at hread
        obtain ⟨ha, rfl⟩ := hread
        exact ⟨r, hr, ha⟩
    | _ => cases hread
  · rintro ⟨r, hr, ha⟩
    exact ⟨.session i, r, hr, by simp [ha]⟩

/-- The cascade to `sessions`. No session of the person is started meanwhile, for that takes a lock
on its actor, so all there are have gone. -/
theorem wp_delete_own_sessions {Q : Held → List Write → List SessionId → World → Prop}
    (h : Progress tx.now a st L ws w) (hst : st.sessions = false)
    (hQ : ∀ L' w' ds, L ⊆ L' → (rules allowed guarded V).Later L w w' → V w' →
      Progress tx.now a { st with sessions := true } L' (ws ++ deletions Key.session ds) w' →
      Q L' (ws ++ deletions Key.session ds) ds w') :
    (rules allowed guarded V).wp Q F (delete_where
      (fun db => db.rows.select fun
        | .session i, r => if r.actor_id = a then some i else none
        | _, _ => none)
      Key.session fun db i => (db.session i).any fun r => r.actor_id = a) L ws w := by
  refine wp_delete_where ?_ ?_ ?_ ?_
  · intro db db' i hget
    simp only [hget]
  · intro db
    refine (Txn.Store.nodup_select _ _).map ?_
    intro i i' heq
    exact Key.session.inj heq
  · intro w₁ hl₁ _ i hi
    obtain ⟨r, hr, -⟩ := mem_own_sessions.mp hi
    exact ((h.later (List.Subset.refl _) hl₁).seen (k := .session i) hr fun _ => rfl).1
  intro w₁ L₂ w₂ hl₁ _ hL₂ hl₂ hv₂ hrows
  have hl := hl₁.trans hl₂
  have hds : ∀ i, i ∈ List.filter (fun i => (w₂.store.session i).any fun r => r.actor_id = a)
      ((view ws w₁.store).rows.select fun
        | .session i, r => if r.actor_id = a then some i else none
        | _, _ => none) ↔ ∃ r, w₂.store.session i = some r ∧ r.actor_id = a := by
    intro i
    rw [List.mem_filter, mem_own_sessions]
    constructor
    · rintro ⟨-, hstill⟩
      simpa [Option.any_eq_true] using hstill
    · rintro ⟨r, hr, hra⟩
      -- A session of the person at the end was there when the statement began.
      obtain ⟨y, hy, hya, -⟩ :=
        frozen_person (k := .session i) h.actor hl₂ hr (congrArg some hra)
      refine ⟨⟨y, (view_get_of_untouched ?_).trans hy, Option.some.inj hya⟩, ?_⟩
      · refine (h.later (List.Subset.refl _) hl₁).unreached ?_
        rintro _ - - hreached
        simp [Stage.reached, hst] at hreached
      · simpa [Option.any_eq_true] using ⟨r, hr, hra⟩
  refine hQ L₂ w₂ _ hL₂ hl hv₂ ?_
  refine (h.later hL₂ hl).extend (fun k _ => ∃ i, k = .session i)
    (fun _ _ => False) ?_ (by intro o e; cases e <;> simp [Stage.recorded]) ?_ ?_ ?_
  · intro k x _
    cases k <;> simp [Stage.reached]
  · intro k r
    simp only [deletions, List.mem_map]
    constructor
    · rintro ⟨i, hi, heq⟩
      obtain ⟨x, hx, hxa⟩ := (hds i).mp hi
      cases heq
      exact ⟨x, hx, congrArg some hxa, ⟨i, rfl⟩, rfl⟩
    · rintro ⟨x, hx, hp, ⟨i, rfl⟩, rfl⟩
      exact ⟨i, (hds i).mpr ⟨x, hx, Option.some.inj hp⟩, rfl⟩
  · rintro k x hx hp ⟨i, rfl⟩
    have hrow : L₂.row (.session i) .update :=
      hrows i (List.mem_of_mem_filter ((hds i).mpr ⟨x, hx, Option.some.inj hp⟩))
    exact ⟨⟨_, by decide, hrow⟩, fun _ => hrow, by rintro _ ⟨⟩⟩
  · intro row
    simp [deletions]

/-- `delete_user`: the user and, by the cascade, the sessions. Without a user the cascade does not
run and does not need to: a session's user is there in every committed state. -/
theorem wp_delete_user {Q : Held → List Write → Unit → World → Prop}
    (h : Progress tx.now a st L ws w) (hst : st.user = false ∧ st.sessions = false)
    (hsession : ∀ v, V v → ∀ i r, v.store.session i = some r → v.store.user r.actor_id ≠ none)
    (hQ : ∀ L' ws' w', L ⊆ L' → (rules allowed guarded V).Later L w w' → V w' →
      Progress tx.now a { st with user := true, sessions := true } L' ws' w' → Q L' ws' () w') :
    (rules allowed guarded V).wp Q F (delete_user (begin tx (.actor a)) a) L ws w := by
  unfold delete_user
  rw [Txn.Rules.wp_bind]
  refine wp_delete_own_user h hst.1 ?_
  intro L₁ w₁ ds hL₁ hl₁ hv₁ hds h₁
  split
  case isTrue =>
    rw [Txn.Rules.wp_bind]
    refine wp_delete_own_sessions h₁ hst.2 ?_
    intro L₂ w₂ es hL₂ hl₂ hv₂ h₂
    exact hQ L₂ _ w₂ (List.Subset.trans hL₁ hL₂) (hl₁.trans (hl₂.mono hL₁)) hv₂ h₂
  case isFalse hnone =>
    -- There was no user, so there is no session either.
    refine hQ L₁ _ w₁ hL₁ hl₁ hv₁ ?_
    have hds_nil : ds = [] := by simpa using hnone
    subst hds_nil
    have hnosession : ∀ i r, w₁.store.session i = some r → r.actor_id ≠ a := by
      rintro i r hr rfl
      obtain ⟨u, hu⟩ := Option.ne_none_iff_exists'.mp (hsession w₁ hv₁ i r hr)
      exact absurd ((hds r.actor_id).mpr ⟨rfl, u, hu⟩) List.not_mem_nil
    rw [← List.append_nil (_ ++ _)]
    refine h₁.extend (fun k _ => ∃ i, k = .session i) (fun _ _ => False) ?_ ?_ ?_ ?_ ?_
    · intro k x _
      cases k <;> simp [Stage.reached]
    · intro o e
      cases e <;> simp [Stage.recorded]
    · intro k r
      constructor
      · exact fun hmem => absurd hmem List.not_mem_nil
      · rintro ⟨x, hx, hp, ⟨i, rfl⟩, -⟩
        exact absurd (Option.some.inj hp) (hnosession i x hx)
    · rintro k x hx hp ⟨i, rfl⟩
      exact absurd (Option.some.inj hp) (hnosession i x hx)
    · simp

/-- The last statement: the actor row loses its name and is marked as departed. It has been locked
since the first statement, so the row that is updated is the one that was read then. -/
theorem wp_close_actor {Q : Held → List Write → Option ActorRow → World → Prop}
    (hF : ∀ L e w, F L e w) (h : Progress tx.now a st L ws w) (hst : st.actor = false)
    {r : ActorRow} (hr : w.store.actor a = some r)
    (hQ : ∀ L' ws' w' x, L ⊆ L' → (rules allowed guarded V).Later L w w' → V w' →
      Progress tx.now a { st with actor := true } L' ws' w' → Q L' ws' x w') :
    (rules allowed guarded V).wp Q F (update (.actor a)
      (fun db _ => actors_select (begin tx (.actor a)) db a
        && actors_update (begin tx (.actor a)) db a) (fun _ => true)
      (fun db old =>
        if actors_update (begin tx (.actor a)) db a then
          .ok { old with display_name := none, deleted_at := some (begin tx (.actor a)).now }
        else .error .insufficientPrivilege)) L ws w := by
  have hfrozen : ∀ v, (rules allowed guarded V).Later L w v → v.store.actor a = some r :=
    fun v hl => (frozen_row (k := .actor a) h.actor (by decide) hl).trans hr
  refine wp_update (k := .actor a) hF (h.unreached ?_) ?_ ?_
  · rintro _ - - hreached
    simp [Stage.reached, hst] at hreached
  · -- A person sees its own actor, so the update does not miss it.
    intro w₁ L₂ w₂ hl₁ _ _ hl₂ _ hmiss
    have := hmiss r (hfrozen w₁ hl₁) (by simp [actors_select, actors_update]) r
      (hfrozen w₂ (hl₁.trans hl₂))
    cases this
  · intro w₁ L₂ w₂ old new hl₁ _ hL₂ hl₂ hv₂ hrow hold _ hset
    split at hset
    case isFalse => cases hset
    case isTrue =>
      cases hset
      have hl := hl₁.trans hl₂
      refine hQ L₂ _ w₂ _ hL₂ hl hv₂ ?_
      refine (h.later hL₂ hl).extend_put (k := .actor a) hold rfl ?_ ?_ ?_
      · intro k y hy
        cases k with
        | actor b =>
            cases hy
            simp [Stage.reached]
        | _ => simp [Stage.reached]
      · intro o' e
        cases e <;> rfl
      · exact ⟨⟨_, by decide, hrow⟩, by rintro ⟨⟩, by rintro _ ⟨⟩⟩

/-! ## The loops -/

/-- The loop over the memberships: after it the stage has come to all their organizations, and each
of these is locked. The induction is on the rounds done, and what they keep is `Progress`. -/
theorem wp_leave_memberships {Q : Held → List Write → Unit → World → Prop}
    {ms : List (OrganizationId × MemberStatus)} (hactor : L.row (.actor a) .update) (hv : V w)
    (hnodup : (ms.map Prod.fst).Nodup) (hleft : ∀ x ∈ ms, x.2 ≠ .left)
    (hmember : ∀ x ∈ ms, ∀ v, (rules allowed guarded V).Later L w v →
      ∃ r, v.store.member x.1 a = some r)
    (hQ : ∀ L' ws' w', L ⊆ L' → (rules allowed guarded V).Later L w w' → V w' →
      Progress tx.now a { organizations := ms.map Prod.fst } L' ws' w' →
      (∀ o ∈ ms.map Prod.fst, L'.any (.organization o)) → Q L' ws' () w') :
    (rules allowed guarded V).wp Q anyError (ms.forM fun row => do
      (leave_organization (begin tx (.actor a)) row.1 a : Sql SqlError Unit)
      if row.2 ≠ .left then
        ((Event.member_left a).write (begin tx (.actor a)) row.1 a : Sql SqlError Unit) :
      Sql LeaveServiceError Unit) L [] w := by
  refine Txn.Rules.wp_mono (Txn.Rules.wp_forM
    (fun done (L' : Held) ws' w' => L ⊆ L' ∧ (rules allowed guarded V).Later L w w' ∧ V w'
      ∧ Progress tx.now a { organizations := done.map Prod.fst } L' ws' w'
      ∧ ∀ o ∈ done.map Prod.fst, L'.any (.organization o))
    ⟨List.Subset.refl _, .refl, hv, .start hactor, by simp⟩ ?_) ?_ fun _ _ _ h => h
  · rintro done x rest rfl L₁ ws₁ w₁ ⟨hL₁, hl₁, -, hprog, horgs⟩
    have hx : x ∈ done ++ x :: rest := by simp
    -- The rounds done were of other organizations: no row of this one has been written yet.
    rw [List.map_append, List.map_cons] at hnodup
    have hnew : x.1 ∉ done.map Prod.fst := fun hmem =>
      (List.nodup_append.mp hnodup).2.2 _ hmem _ List.mem_cons_self rfl
    refine wp_leave_membership hprog hnew (hleft x hx) (hmember x hx w₁ hl₁) ?_
    intro L₂ ws₂ w₂ hL₂ hl₂ hv₂ hprog₂ horg
    refine ⟨List.Subset.trans hL₁ hL₂, hl₁.trans (hl₂.mono hL₁), hv₂, ?_, ?_⟩
    · rw [List.map_append]
      exact hprog₂
    · intro o' ho'
      rw [List.map_append, List.mem_append] at ho'
      obtain ho' | ho' := ho'
      · obtain ⟨m, hm⟩ := horgs o' ho'
        exact ⟨m, hL₂ hm⟩
      · cases List.mem_singleton.mp ho'
        exact horg
  · rintro L' ws' - w' ⟨hL', hl', hv', hprog, horgs⟩
    exact hQ L' ws' w' hL' hl' hv' hprog horgs

/-- The loop over the organizations of the channel listings. Nothing is asked of the memberships:
an outside listing is in an organization where the person has none. -/
theorem wp_leave_all_channels {Q : Held → List Write → Unit → World → Prop}
    {cs : List OrganizationId} (hnodup : cs.Nodup) (h : Progress tx.now a st L ws w)
    (hst : st.channels = []) (hv : V w)
    (hQ : ∀ L' ws' w', L ⊆ L' → (rules allowed guarded V).Later L w w' → V w' →
      Progress tx.now a { st with channels := cs } L' ws' w' → Q L' ws' () w') :
    (rules allowed guarded V).wp Q anyError
      (cs.forM fun o => (leave_channels (begin tx (.actor a)) o a : Sql SqlError Unit) :
        Sql LeaveServiceError Unit) L ws w := by
  refine Txn.Rules.wp_mono (Txn.Rules.wp_forM
    (fun done (L' : Held) ws' w' => L ⊆ L' ∧ (rules allowed guarded V).Later L w w' ∧ V w'
      ∧ Progress tx.now a { st with channels := done } L' ws' w')
    ⟨List.Subset.refl _, .refl, hv, hst ▸ h⟩ ?_) ?_ fun _ _ _ h => h
  · rintro done o rest rfl L₁ ws₁ w₁ ⟨hL₁, hl₁, -, hprog⟩
    have hnew : o ∉ done := fun hmem =>
      (List.nodup_append.mp hnodup).2.2 _ hmem _ List.mem_cons_self rfl
    rw [wp_lift]
    refine wp_leave_channels (fun _ _ _ => trivial) hprog hnew ?_
    intro L₂ ws₂ w₂ hL₂ hl₂ hv₂ hprog₂
    exact ⟨List.Subset.trans hL₁ hL₂, hl₁.trans (hl₂.mono hL₁), hv₂, hprog₂⟩
  · rintro L' ws' - w' ⟨hL', hl', hv', hprog⟩
    exact hQ L' ws' w' hL' hl' hv' hprog

/-- The loop that closes the memberships. It comes after both others, as the source's comment says:
a person whose membership is closed no longer sees the organization's rows. -/
theorem wp_close_memberships {Q : Held → List Write → Unit → World → Prop}
    {ms : List (OrganizationId × MemberStatus)} (h : Progress tx.now a st L ws w)
    (hst : st.memberships = []) (hv : V w) (hnodup : (ms.map Prod.fst).Nodup)
    (hmember : ∀ x ∈ ms, ∀ v, (rules allowed guarded V).Later L w v →
      ∃ r, v.store.member x.1 a = some r)
    (horgs : ∀ o ∈ ms.map Prod.fst, L.any (.organization o))
    (hQ : ∀ L' ws' w', L ⊆ L' → (rules allowed guarded V).Later L w w' → V w' →
      Progress tx.now a { st with memberships := ms.map Prod.fst } L' ws' w' → Q L' ws' () w') :
    (rules allowed guarded V).wp Q anyError
      (ms.forM fun row => (update_member (begin tx (.actor a)) row.1 a fun r =>
        { r with status := .left, display_name := none } : Sql SqlError Unit) :
        Sql LeaveServiceError Unit) L ws w := by
  refine Txn.Rules.wp_mono (Txn.Rules.wp_forM
    (fun done (L' : Held) ws' w' => L ⊆ L' ∧ (rules allowed guarded V).Later L w w' ∧ V w'
      ∧ Progress tx.now a { st with memberships := done.map Prod.fst } L' ws' w')
    ⟨List.Subset.refl _, .refl, hv, by rwa [List.map_nil, ← hst]⟩ ?_) ?_ fun _ _ _ h => h
  · rintro done x rest rfl L₁ ws₁ w₁ ⟨hL₁, hl₁, -, hprog⟩
    have hx : x ∈ done ++ x :: rest := by simp
    obtain ⟨m, hm⟩ := horgs x.1 (List.mem_map_of_mem hx)
    rw [List.map_append, List.map_cons] at hnodup
    -- The organizations are listed once each, so this one has not been closed yet.
    have hnew : x.1 ∉ done.map Prod.fst := fun hmem =>
      (List.nodup_append.mp hnodup).2.2 _ hmem _ List.mem_cons_self rfl
    rw [wp_lift]
    refine wp_close_membership (fun _ _ _ => trivial) hprog hnew (hmember x hx w₁ hl₁)
      ⟨m, hL₁ hm⟩ ?_
    intro L₂ ws₂ w₂ hL₂ hl₂ hv₂ hprog₂
    refine ⟨List.Subset.trans hL₁ hL₂, hl₁.trans (hl₂.mono hL₁), hv₂, ?_⟩
    rw [List.map_append]
    exact hprog₂
  · rintro L' ws' - w' ⟨hL', hl', hv', hprog⟩
    exact hQ L' ws' w' hL' hl' hv' hprog

/-- The owner checks, under the locks of all the organizations where the person is active. A check
that has passed stays true to the commit, because whoever changes an owner locks the organization
first. -/
theorem wp_check_owners {Q : Held → List Write → Unit → World → Prop} {os : List OrganizationId}
    (horgs : ∀ o ∈ os, L.row (.organization o) .update) (hv : V w)
    (hQ : ∀ w', (rules allowed guarded V).Later L w w' → V w' →
      (rules allowed guarded V).Hence L (fun v => ∀ o ∈ os, v.store.ownedWithout o a) w' →
      Q L [] () w') :
    (rules allowed guarded V).wp Q anyError (os.forM fun organization => (do
      let owners ← (active_owners (begin tx (.actor a)) organization : Sql SqlError _)
      ensure (check_owner_change owners (.leave a)) (LeaveServiceError.lastOwner organization) :
      Sql LeaveServiceError Unit)) L [] w := by
  have hfrozen : ∀ {v v' : World} {o}, o ∈ os → (rules allowed guarded V).Later L v v' →
      v.store.ownedWithout o a → v'.store.ownedWithout o a := by
    rintro v v' o ho hl ⟨b, hb, howner⟩
    exact ⟨b, hb, (frozen_activeOwner (horgs o ho) hl b).trans howner⟩
  refine Txn.Rules.wp_mono (Txn.Rules.wp_forM
    (fun done (L' : Held) ws' w' => L' = L ∧ ws' = [] ∧ (rules allowed guarded V).Later L w w'
      ∧ V w' ∧ ∀ o ∈ done, w'.store.ownedWithout o a)
    ⟨rfl, rfl, .refl, hv, by simp⟩ ?_) ?_ fun _ _ _ h => h
  · rintro done o rest rfl L₁ ws₁ w₁ ⟨rfl, rfl, hl₁, -, hdone⟩
    rw [Txn.Rules.wp_bind, wp_lift]
    refine wp_active_owners ?_
    intro w₂ owners hl₂ hv₂ howners
    refine wp_ensure (fun hcheck => ?_) fun _ => trivial
    refine ⟨rfl, rfl, hl₁.trans hl₂, hv₂, ?_⟩
    intro o' ho'
    -- The checks made before still hold: the owners cannot change under the lock.
    obtain ho' | ho' := List.mem_append.mp ho'
    · exact hfrozen (List.mem_append_left _ ho') hl₂ (hdone o' ho')
    · cases List.mem_singleton.mp ho'
      exact ownedWithout_of_check howners hcheck
  · rintro L' ws' - w' ⟨rfl, rfl, hl', hv', hdone⟩
    exact hQ w' hl' hv' fun v hl _ o ho => hfrozen ho hl (hdone o ho)

/-! ## The whole departure -/

/-- What a departure needs of every committed state: someone who is listed as left has departed,
team members are members, sessions belong to users. Each of them is an invariant proved elsewhere,
and none can be read off the statements of the operation. -/
structure Leavable (db : Database) : Prop where
  left : ∀ o a r, db.member o a = some r → r.status = .left → db.departed a = true
  team : ∀ t a r, db.teamMember t a = some r → ∃ m, db.member r.organization_id a = some m
  session : ∀ i r, db.session i = some r → db.user r.actor_id ≠ none

/-- The last stage covers everything personal, and every record. What the enumerations have listed
is all there is, by `hmembers` and `hchannels`; a team membership is covered through the membership
that its foreign key asks for. -/
theorem Progress.departure {guarded : Bool} {now : Instant} (h : Progress now a st L ws w)
    (hsane : Leavable w.store) (hmembers : ∀ o r, w.store.member o a = some r →
      o ∈ st.organizations ∧ o ∈ st.memberships)
    (hchannels : ∀ c r, w.store.channelMember c a = some r → r.organization_id ∈ st.channels)
    (hown : st.user = true ∧ st.sessions = true ∧ st.actor = true)
    (hpresent : w.store.present a)
    (howners : guarded = true → ∀ o, w.store.activeOwner o a = true → w.store.ownedWithout o a) :
    Departure ws w.store guarded now a where
  present := hpresent
  owners := howners
  puts k r := by
    rw [h.puts]
    constructor
    · rintro ⟨x, hx, hp, hreached, rfl⟩
      exact ⟨Stage.personal hreached, x, hx, hp, rfl⟩
    · rintro ⟨hpersonal, x, hx, hp, rfl⟩
      refine ⟨x, hx, hp, ?_, rfl⟩
      cases k with
      | actor b => exact hown.2.2
      | user b => exact hown.1
      | session i => exact hown.2.1
      | member o b =>
          cases hp
          exact (hmembers o x hx).2
      -- Its organization was listed with the membership behind it.
      | teamMember t b =>
          cases hp
          obtain ⟨m, hm⟩ := hsane.team t a x hx
          exact ⟨_, (hmembers _ m hm).1, rfl⟩
      | channelMember c b =>
          cases hp
          exact ⟨_, hchannels c x hx, rfl⟩
      | _ => cases hpersonal
  records row := by
    rw [h.records]
    refine and_congr_right fun _ => ⟨And.right, fun hrec => ⟨?_, hrec⟩⟩
    obtain ⟨o, b, e⟩ := row
    cases e with
    | team_member_removed b t reason =>
        obtain ⟨-, -, r, hr, ho⟩ := hrec
        obtain ⟨m, hm⟩ := hsane.team t a r hr
        exact ho ▸ (hmembers _ m hm).1
    | member_left b =>
        obtain ⟨-, r, hr⟩ := hrec
        exact (hmembers o r hr).1
    | channel_member_left b c =>
        obtain ⟨-, r, hr, ho⟩ := hrec
        exact ho ▸ hchannels c r hr
    | _ => exact hrec.elim

/-- **`leave_service`.** The actor lock of the first statement carries the proof: under it the two
enumerations stay complete, so the loops come to every row about the person, and the owner checks
stay true. An organization owned at the commit was already an active one when the organizations
were locked, since a suspended membership cannot be reactivated meanwhile. -/
theorem wp_leave_service {c : Call} (hV : ∀ v, V v → Leavable v.store) :
    (rules allowed guarded V).wp
      (Ends allowed guarded V c fun _ ws db => Departure ws db guarded tx.now a) anyError
      (leave_service tx a) L [] w := by
  unfold leave_service
  rw [Txn.Rules.wp_bind, wp_lift]
  refine wp_select_locking (fun _ _ _ _ _ => trivial) ?_
  intro L₁ w₁ r hL₁ hl₁ hv₁ hactor hr _
  dsimp only
  split
  case isTrue => trivial
  case isFalse hdel =>
    have hr_later : ∀ {L' : Held} {v}, L₁ ⊆ L' → (rules allowed guarded V).Later L' w₁ v →
        v.store.actor a = some r :=
      fun hL hl => (frozen_row (k := .actor a) (hL hactor) (by decide) hl).trans hr
    rw [Txn.Rules.wp_bind, wp_snapshot]
    intro w₂ hl₂ hv₂
    rw [Txn.Rules.wp_bind, wp_lift]
    refine wp_lock_rows (by decide) (fun _ _ _ _ => rfl) ?_ hv₂
    intro L₃ w₃ hL₃ hl₃ hv₃ horgs
    rw [List.map_id']
    have hactor₃ : L₃.row (.actor a) .update := hL₃ hactor
    rw [Txn.Rules.wp_bind]
    refine wp_check_owners horgs hv₃ ?_
    intro w₄ hl₄ hv₄ howned
    rw [Txn.Rules.wp_bind, wp_lift, wp_select]
    intro w₅ hl₅ hv₅
    rw [Txn.Rules.wp_bind, wp_lift, wp_select]
    intro w₆ hl₆ hv₆
    -- What the two enumerations list stays what there is.
    have hmemberships : ∀ {v}, (rules allowed guarded V).Later L₃ w₅ v → ∀ o,
        o ∈ (memberships_of (begin tx (.actor a)) (view [] w₅.store) a).map Prod.fst ↔
          ∃ m, v.store.member o a = some m := by
      intro v hl o
      rw [List.mem_map]
      constructor
      · rintro ⟨⟨o', status⟩, hlisted, rfl⟩
        obtain ⟨m, hm, -⟩ := (mem_memberships_of tx).mp hlisted
        obtain ⟨m', hm', -, -⟩ := persists (k := .member o' a) (.inl rfl) hm hl
        exact ⟨m', hm'⟩
      · rintro ⟨m, hm⟩
        obtain ⟨m', hm', -, -⟩ := frozen_person (k := .member o a) hactor₃ hl hm rfl
        exact ⟨(o, m'.status), (mem_memberships_of tx).mpr ⟨m', hm', rfl⟩, rfl⟩
    have hlistings : ∀ {v}, (rules allowed guarded V).Later L₃ w₆ v → ∀ c x,
        v.store.channelMember c a = some x →
          x.organization_id ∈ listing_organizations (begin tx (.actor a)) (view [] w₆.store) a := by
      intro v hl c x hx
      obtain ⟨y, hy, -, hty⟩ := frozen_person (k := .channelMember c a) hactor₃ hl hx rfl
      exact mem_listing_organizations.mpr ⟨c, y, hy, Option.some.inj hty⟩
    -- No membership is listed as left, for the person has not departed: the status test of the
    -- membership loop always passes.
    have hnotleft : ∀ x ∈ memberships_of (begin tx (.actor a)) (view [] w₅.store) a, x.2 ≠ .left := by
      rintro ⟨o, status⟩ hlisted rfl
      obtain ⟨m, hm, hstatus⟩ := (mem_memberships_of tx).mp hlisted
      obtain ⟨x, hx, hgone⟩ := Database.departed_iff.mp ((hV w₅ hv₅).left o a m hm hstatus)
      have hr₅ : w₅.store.actor a = some r :=
        hr_later (List.Subset.refl _) (hl₂.trans (hl₃.trans
          (Txn.Rules.Later.mono hL₃ (hl₄.trans hl₅))))
      cases hr₅.symm.trans hx
      exact hdel hgone
    have hnodup := nodup_memberships_of (begin tx (.actor a)) (view [] w₅.store) a
    have hnodup' : (listing_organizations (begin tx (.actor a)) (view [] w₆.store) a).Nodup :=
      Txn.Store.nodup_selectSorted _ _
    generalize memberships_of (begin tx (.actor a)) (view [] w₅.store) a = ms
      at hmemberships hnotleft hnodup ⊢
    generalize listing_organizations (begin tx (.actor a)) (view [] w₆.store) a = cs
      at hlistings hnodup' ⊢
    have hmember : ∀ x ∈ ms, ∀ v, (rules allowed guarded V).Later L₃ w₆ v →
        ∃ m, v.store.member x.1 a = some m :=
      fun x hx v hl => (hmemberships (hl₆.trans hl) x.1).mp (List.mem_map_of_mem hx)
    rw [Txn.Rules.wp_bind]
    refine wp_leave_memberships hactor₃ hv₆ hnodup hnotleft hmember ?_
    intro L₇ ws₇ w₇ hL₇ hl₇ hv₇ hprog₇ horgs₇
    rw [Txn.Rules.wp_bind]
    refine wp_leave_all_channels hnodup' hprog₇ rfl hv₇ ?_
    intro L₈ ws₈ w₈ hL₈ hl₈ hv₈ hprog₈
    have hl₆₈ : (rules allowed guarded V).Later L₃ w₆ w₈ := hl₇.trans (hl₈.mono hL₇)
    have hL₃₈ : L₃ ⊆ L₈ := List.Subset.trans hL₇ hL₈
    rw [Txn.Rules.wp_bind]
    refine wp_close_memberships hprog₈ rfl hv₈ hnodup
      (fun x hx v hl => hmember x hx v (hl₆₈.trans (hl.mono hL₃₈))) ?_ ?_
    · intro o ho
      obtain ⟨m, hm⟩ := horgs₇ o ho
      exact ⟨m, hL₈ hm⟩
    intro L₉ ws₉ w₉ hL₉ hl₉ hv₉ hprog₉
    rw [Txn.Rules.wp_bind, wp_lift]
    refine wp_delete_user hprog₉ ⟨rfl, rfl⟩ (fun v hv => (hV v hv).session) ?_
    intro L₁₀ ws₁₀ w₁₀ hL₁₀ hl₁₀ hv₁₀ hprog₁₀
    have hL₃₁₀ : L₃ ⊆ L₁₀ := List.Subset.trans hL₃₈ (List.Subset.trans hL₉ hL₁₀)
    have hl₈₁₀ : (rules allowed guarded V).Later L₈ w₈ w₁₀ := hl₉.trans (hl₁₀.mono hL₉)
    have hl₆₁₀ : (rules allowed guarded V).Later L₃ w₆ w₁₀ := hl₆₈.trans (hl₈₁₀.mono hL₃₈)
    have hl₂₆ : (rules allowed guarded V).Later L₁ w₂ w₆ :=
      hl₃.trans (Txn.Rules.Later.mono hL₃ (hl₄.trans (hl₅.trans hl₆)))
    have hr₁₀ : w₁₀.store.actor a = some r :=
      hr_later (List.Subset.refl _) (hl₂.trans (hl₂₆.trans (hl₆₁₀.mono hL₃)))
    rw [Txn.Rules.wp_bind, wp_lift]
    refine wp_close_actor (fun _ _ _ => trivial) hprog₁₀ rfl hr₁₀ ?_
    intro L₁₁ ws₁₁ w₁₁ _ hL₁₁ hl₁₁ hv₁₁ hprog₁₁ v hl hv
    have hprog := hprog₁₁.later (List.Subset.refl _) hl
    have hl₆v : (rules allowed guarded V).Later L₃ w₆ v :=
      hl₆₁₀.trans (Txn.Rules.Later.mono hL₃₁₀ (hl₁₁.trans (hl.mono hL₁₁)))
    have hl₂v : (rules allowed guarded V).Later L₁ w₂ v := hl₂₆.trans (hl₆v.mono hL₃)
    refine ⟨hprog.disciplined c, hprog.departure (hV v hv) ?_ (hlistings hl₆v)
      ⟨rfl, rfl, rfl⟩ ⟨r, ?_, ?_⟩ ?_⟩
    · intro o m hm
      have ho := (hmemberships (hl₆.trans hl₆v) o).mpr ⟨m, hm⟩
      exact ⟨ho, ho⟩
    · exact hr_later (List.Subset.refl _) (hl₂.trans hl₂v)
    · simpa using hdel
    · -- An organization owned at the end was an active one when they were locked: a membership
      -- is made active by a call that takes a share lock on the actor.
      rintro rfl o howner
      obtain ⟨m, hm, hstatus, -⟩ := Database.activeOwner_iff.mp howner
      have hactive : w₂.store.active o a = true :=
        not_activated hactor hl₂v (Database.active_iff.mpr ⟨m, hm, hstatus⟩)
      exact howned v (hl₅.trans (hl₆.trans hl₆v)) hv o (mem_active_memberships.mpr hactive)

end Fukulow
