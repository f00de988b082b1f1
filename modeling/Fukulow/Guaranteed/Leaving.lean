/-
`operations/leaving.rs` meets its guarantee.

A departure writes many rows over many statements, so its proof carries one invariant,
`Progress`: the writes so far are exactly what the departure makes of the rows about the
person that the stage reached covers, read at the current world, and each of them is
locked. The actor lock `FOR UPDATE` makes this stable. No new row about the person can
come, no row of theirs but a team membership can go, and a row once reached is locked.
Every statement of the operation extends the stage, and when the last one has, the stage
covers everything personal.
-/
import Fukulow.Guaranteed.Membership
import Fukulow.Operations.Leaving

set_option autoImplicit false

namespace Fukulow

open Txn (LockMode)

variable {allowed : Call → Bool} {guarded : Bool} {V : World → Prop}
variable {L L' : Held} {ws : List Write} {w w' : World} {now : Instant} {a : ActorId}

/-! ## How far a departure has come -/

/-- The organizations whose team memberships are gone, those whose channel listings are
gone, those whose membership is closed, and which of the person's own rows are done. -/
structure Stage where
  organizations : List OrganizationId := []
  channels : List OrganizationId := []
  memberships : List OrganizationId := []
  user : Bool := false
  sessions : Bool := false
  actor : Bool := false

/-- Does the stage cover the row `k`, which belongs to `t`? -/
def Stage.reached (st : Stage) : Key → Option OrganizationId → Prop
  | .teamMember _ _, t => ∃ o ∈ st.organizations, t = some o
  | .channelMember _ _, t => ∃ o ∈ st.channels, t = some o
  | .member o _, _ => o ∈ st.memberships
  | .user _, _ => st.user = true
  | .session _, _ => st.sessions = true
  | .actor _, _ => st.actor = true
  | .organization _, _ | .team _, _ | .channel _, _ | .message _, _ | .invite _, _ => False

/-- Has the stage written this record of organization `o`? -/
def Stage.recorded (st : Stage) (o : OrganizationId) : Event → Prop
  | .team_member_removed _ _ _ | .member_left _ => o ∈ st.organizations
  | .channel_member_left _ _ => o ∈ st.channels
  | _ => False

/-- A stage covers personal rows only: those that hold something about one person. -/
theorem Stage.personal {st : Stage} {k : Key} {t : Option OrganizationId} (h : st.reached k t) :
    k.personal = true := by
  cases k <;> first | rfl | exact h.elim

/-- The locks behind the departing version of the row `x`: one that lets it be written, the
strongest where the row is deleted, and one on its organization. -/
structure DepartureLocks (now : Instant) (L : Held) (k : Key) (x : Row k) : Prop where
  row : ∃ m : LockMode, m.writes ∧ L.row k m
  delete : departing now k x = none → L.row k .update
  organization : ∀ o, tenant k x = some o → L.any (.organization o)

/-- A departure only ever takes more locks, so what was covered stays covered. -/
theorem DepartureLocks.mono {k : Key} {x : Row k} (h : DepartureLocks now L k x) (hL : L ⊆ L') :
    DepartureLocks now L' k x where
  row := by
    obtain ⟨m, hm, hrow⟩ := h.row
    exact ⟨m, hm, hL hrow⟩
  delete hnone := hL (h.delete hnone)
  organization o ho := by
    obtain ⟨m, hm⟩ := h.organization o ho
    exact ⟨m, hL hm⟩

/-- The writes of a departure that has come to the stage `st`: exactly those that the rows about
the person call for, read at the current world, with the locks and the records behind them. It
speaks of the current world, not of the one in which a row was written, so that at the end it is a
statement about the commit. -/
structure Progress (now : Instant) (a : ActorId) (st : Stage) (L : Held) (ws : List Write)
    (w : World) : Prop where
  actor : L.row (.actor a) .update
  puts : ∀ k r, Write.put k r ∈ ws ↔ ∃ x, w.store.rows.get k = some x ∧ person k x = some a
    ∧ st.reached k (tenant k x) ∧ r = departing now k x
  locks : ∀ k x, w.store.rows.get k = some x → person k x = some a →
    st.reached k (tenant k x) → DepartureLocks now L k x
  records : ∀ row, Write.log row ∈ ws ↔ row.actor_id = a
    ∧ st.recorded row.organization_id row.event
    ∧ DepartureRecord w.store a row.organization_id row.event

/-- At first nothing is covered and nothing is written; all there is is the lock on the actor. -/
theorem Progress.start (h : L.row (.actor a) .update) : Progress now a {} L [] w where
  actor := h
  puts k r := by
    constructor
    · exact fun hmem => absurd hmem List.not_mem_nil
    · rintro ⟨x, -, -, hreached, -⟩
      cases k <;> simp [Stage.reached] at hreached
  locks k x _ _ hreached := by cases k <;> simp [Stage.reached] at hreached
  records row := by
    constructor
    · exact fun hmem => absurd hmem List.not_mem_nil
    · rintro ⟨-, hrecorded, -⟩
      cases hevent : row.event <;> simp [Stage.recorded, hevent] at hrecorded

/-! ### The rows about a departing actor -/

/-- A row about the departing actor was there before, and of the same organization. Nobody adds one
while the actor is locked, and one that is covered is locked itself. -/
theorem Progress.before {st : Stage} (h : Progress now a st L ws w)
    (hl : (rules allowed guarded V).Later L w w') {k : Key} {x : Row k}
    (hx : w'.store.rows.get k = some x) (hp : person k x = some a)
    (hreached : st.reached k (tenant k x)) : w.store.rows.get k = some x := by
  obtain ⟨y, hy, hpy, hty⟩ := frozen_person h.actor hl hx hp
  obtain ⟨m, hm, hrow⟩ := (h.locks k y hy hpy (hty ▸ hreached)).row
  rw [← frozen_row hrow ((by decide : LockMode.share.strength ≤ LockMode.noKeyUpdate.strength).trans
    hm) hl, hx]

/-- A row the stage covers is frozen by the lock that its write has taken. -/
theorem Progress.after {st : Stage} (h : Progress now a st L ws w)
    (hl : (rules allowed guarded V).Later L w w') {k : Key} {x : Row k}
    (hx : w.store.rows.get k = some x) (hp : person k x = some a)
    (hreached : st.reached k (tenant k x)) : w'.store.rows.get k = some x := by
  obtain ⟨m, hm, hrow⟩ := (h.locks k x hx hp hreached).row
  rw [frozen_row hrow ((by decide : LockMode.share.strength ≤ LockMode.noKeyUpdate.strength).trans
    hm) hl, hx]

/-- The records that the stage covers speak of rows that stay: a team membership and a listing by
their locks, a membership because none is ever deleted. One case for each kind of record, in both
directions. -/
theorem Progress.records_later {st : Stage} (h : Progress now a st L ws w)
    (hl : (rules allowed guarded V).Later L w w') {o : OrganizationId} {e : Event}
    (hrec : st.recorded o e) :
    DepartureRecord w'.store a o e ↔ DepartureRecord w.store a o e := by
  cases e with
  | team_member_removed b t reason =>
      have hreached : ∀ r : TeamMemberRow, r.organization_id = o →
          st.reached (.teamMember t a) (tenant (.teamMember t a) r) :=
        fun r hr => ⟨o, hrec, congrArg some hr⟩
      constructor
      · rintro ⟨rfl, rfl, r, hr, ho⟩
        exact ⟨rfl, rfl, r, h.before (k := .teamMember t b) hl hr rfl (hreached r ho), ho⟩
      · rintro ⟨rfl, rfl, r, hr, ho⟩
        exact ⟨rfl, rfl, r, h.after (k := .teamMember t b) hl hr rfl (hreached r ho), ho⟩
  | member_left b =>
      -- A membership is written only at a later stage, so here no lock of its own is used.
      constructor
      · rintro ⟨rfl, r, hr⟩
        obtain ⟨y, hy, -, -⟩ := frozen_person (k := .member o b) h.actor hl hr rfl
        exact ⟨rfl, y, hy⟩
      · rintro ⟨rfl, r, hr⟩
        obtain ⟨y, hy, -, -⟩ := persists (k := .member o b) (.inl rfl) hr hl
        exact ⟨rfl, y, hy⟩
  | channel_member_left b c =>
      constructor
      · rintro ⟨rfl, r, hr, ho⟩
        obtain ⟨y, hy, -, hty⟩ := frozen_person (k := .channelMember c b) h.actor hl hr rfl
        exact ⟨rfl, y, hy, (Option.some.inj hty).trans ho⟩
      · rintro ⟨rfl, r, hr, ho⟩
        obtain ⟨y, hy, hty, -⟩ :=
          kept_person (k := .channelMember c b) h.actor (by simp) hr rfl hl
        exact ⟨rfl, y, hy, (Option.some.inj hty).trans ho⟩
  | _ => exact hrec.elim

/-- **Progress is stable.** The rows it is read from neither come nor go nor change while the world
moves on, as `before` and `after` say; so it may be used at the statement after, and in the end at
the commit. -/
theorem Progress.later {st : Stage} (h : Progress now a st L ws w) (hL : L ⊆ L')
    (hl : (rules allowed guarded V).Later L w w') : Progress now a st L' ws w' where
  actor := hL h.actor
  puts k r := by
    rw [h.puts]
    constructor
    · rintro ⟨x, hx, hp, hreached, rfl⟩
      exact ⟨x, h.after hl hx hp hreached, hp, hreached, rfl⟩
    · rintro ⟨x, hx, hp, hreached, rfl⟩
      exact ⟨x, h.before hl hx hp hreached, hp, hreached, rfl⟩
  locks k x hx hp hreached := (h.locks k x (h.before hl hx hp hreached) hp hreached).mono hL
  records row := by
    rw [h.records]
    refine and_congr_right fun _ => and_congr_right fun hrec => ?_
    exact (h.records_later hl hrec).symm

/-- More writes bring the departure to the next stage. What is new is described twice, by the keys
that come to be covered and by the records, and the writes have to be exactly what these call for.
Every statement of the operation is one use of this. -/
theorem Progress.extend {st st' : Stage} (h : Progress now a st L ws w) {vs : List Write}
    (newRow : Key → Option OrganizationId → Prop) (newRecord : OrganizationId → Event → Prop)
    (hreached : ∀ k x, person k x = some a →
      (st'.reached k (tenant k x) ↔ st.reached k (tenant k x) ∨ newRow k (tenant k x)))
    (hrecorded : ∀ o e, st'.recorded o e ↔ st.recorded o e ∨ newRecord o e)
    (hputs : ∀ k r, Write.put k r ∈ vs ↔ ∃ x, w.store.rows.get k = some x ∧ person k x = some a
      ∧ newRow k (tenant k x) ∧ r = departing now k x)
    (hlocks : ∀ k x, w.store.rows.get k = some x → person k x = some a →
      newRow k (tenant k x) → DepartureLocks now L k x)
    (hrecords : ∀ row, Write.log row ∈ vs ↔ row.actor_id = a
      ∧ newRecord row.organization_id row.event
      ∧ DepartureRecord w.store a row.organization_id row.event) :
    Progress now a st' L (ws ++ vs) w where
  actor := h.actor
  puts k r := by
    rw [List.mem_append, h.puts, hputs]
    constructor
    · rintro (⟨x, hx, hp, hst, hr⟩ | ⟨x, hx, hp, hnew, hr⟩)
      · exact ⟨x, hx, hp, (hreached k x hp).mpr (.inl hst), hr⟩
      · exact ⟨x, hx, hp, (hreached k x hp).mpr (.inr hnew), hr⟩
    · rintro ⟨x, hx, hp, hst, hr⟩
      obtain hst | hnew := (hreached k x hp).mp hst
      · exact .inl ⟨x, hx, hp, hst, hr⟩
      · exact .inr ⟨x, hx, hp, hnew, hr⟩
  locks k x hx hp hst := by
    obtain hst | hnew := (hreached k x hp).mp hst
    · exact h.locks k x hx hp hst
    · exact hlocks k x hx hp hnew
  records row := by
    rw [List.mem_append, h.records, hrecords, hrecorded]
    tauto

/-- What the departing actor sees of a row that the stage does not cover: nothing of its own, for
it has not written it. -/
theorem Progress.unreached {st : Stage} (h : Progress now a st L ws w) {k : Key}
    (hk : ∀ x, w.store.rows.get k = some x → person k x = some a → ¬st.reached k (tenant k x)) :
    ∀ r, Write.put k r ∉ ws := by
  intro r hmem
  obtain ⟨x, hx, hp, hreached, -⟩ := (h.puts k r).mp hmem
  exact hk x hx hp hreached

/-- A row that the actor still sees unchanged was not covered, or covered and kept. Where a
departure deletes, it has not been written at all. -/
theorem Progress.seen {st : Stage} (h : Progress now a st L ws w) {k : Key} {x : Row k}
    (hx : (view ws w.store).rows.get k = some x) (hdel : ∀ y : Row k, departing now k y = none) :
    (∀ r, Write.put k r ∉ ws) ∧ w.store.rows.get k = some x := by
  have huntouched : ∀ r, Write.put k r ∉ ws := by
    intro r hmem
    have hall : ∀ r', Write.put k r' ∈ ws → r' = none := by
      intro r' hmem'
      obtain ⟨y, -, -, -, rfl⟩ := (h.puts k r').mp hmem'
      exact hdel y
    rw [view_get_of_put (hall r hmem ▸ hmem) hall] at hx
    cases hx
  exact ⟨huntouched, (view_get_of_untouched huntouched).symm.trans hx⟩

/-! ### The end of a departure -/

/-- A departing row keeps its organization and its person: it is emptied or closed, not moved. -/
theorem departing_same {k : Key} {x y : Row k} (h : departing now k x = some y) :
    tenant k y = tenant k x ∧ person k y = person k x := by
  cases k <;> cases h <;> exact ⟨rfl, rfl⟩

/-- What a departure deletes is of a table that allows deleting. -/
theorem departing_none {k : Key} {x : Row k} (h : departing now k x = none) :
    k.deletable = true := by
  cases k <;> cases h <;> rfl

/-- What a departure rewrites is of a table whose rows are updated at all. -/
theorem departing_updatable {k : Key} {x y : Row k} (hk : k.personal = true)
    (h : departing now k x = some y) : k.updatable = true := by
  cases k with
  | user _ => cases h
  | channelMember _ _ => cases h
  | team _ => cases hk
  | message _ => cases hk
  | _ => rfl

/-- The writes of a departure are covered. For each write there is the row it was made from, and
what has to be shown of it is read off that row's locks and off what departing leaves alone. -/
theorem Progress.disciplined {st : Stage} (h : Progress now a st L ws w) (c : Call) :
    Disciplined c L ws w.store := by
  intro k r hmem
  obtain ⟨x, hx, hp, hreached, rfl⟩ := (h.puts k r).mp hmem
  obtain ⟨hrow, hdelete, horg⟩ := h.locks k x hx hp hreached
  refine
    { row := hrow
      organization := ?_
      actor := fun hnone => by simp [hx] at hnone
      kept := fun hnone => ⟨departing_none hnone, hdelete hnone⟩
      departure := ?_
      same := ?_
      fixed := ?_
      activation := ?_ }
  · rintro y o (hy | hy) ho
    · cases hx.symm.trans hy
      exact horg o ho
    · exact horg o ((departing_same hy).1 ▸ ho)
  · intro _ _ y b hy hb
    cases hx.symm.trans hy
    cases hp.symm.trans hb
    exact h.actor
  · intro y z hy hz
    cases hx.symm.trans hy
    exact departing_same hz
  · intro y hy hfixed
    rw [departing_updatable (Stage.personal hreached) hy] at hfixed
    cases hfixed
  · -- It makes nobody active.
    rintro o b rfl hact
    rw [view_put_active] at hact
    simp [departing] at hact

end Fukulow
