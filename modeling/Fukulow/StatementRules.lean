/-
Rules for the forms of SQL statement: where a statement can end, and what its locks
have made true there.

Each rule reduces `wp` of a statement to its continuation at every later world: which
locks are held then (`L ⊆ L'`), that the world has moved on only as the earlier locks
allow (`Later`), and what the newest version of the row turned out to be. A rule with a
statement snapshot names its world as well, since row security is decided there. No
statement fails in a way a guarantee speaks of, so an error needs no proof (`hF`).
-/
import Fukulow.Stability

set_option autoImplicit false

namespace Fukulow

open Txn (LockMode)

variable {allowed : Call → Bool} {guarded : Bool} {V : World → Prop}
variable {α ε : Type} {Q : Held → List Write → α → World → Prop}
variable {L : Held} {ws : List Write} {w : World}

/-! ## Plumbing -/

theorem wp_lift [FromSql ε] {F : Held → ε → World → Prop} {p : Sql SqlError α} :
    (rules allowed guarded V).wp Q F (liftM p : Sql ε α) L ws w ↔
      (rules allowed guarded V).wp Q (fun L e w => F L (FromSql.database e) w) p L ws w :=
  Txn.Rules.wp_mapError

/-- A plain `SELECT` reads the view of some later world: a moment of its own, since the isolation
is `READ COMMITTED`. What an earlier statement read need not hold at it any more. -/
theorem wp_select {F : Held → SqlError → World → Prop} {q : Database → α} :
    (rules allowed guarded V).wp Q F (select q) L ws w ↔
      ∀ w', (rules allowed guarded V).Later L w w' → V w' → Q L ws (q (view ws w'.store)) w' :=
  Iff.rfl

/-- The snapshot of a statement. It stands apart from the locks that the statement then takes, for
these may be granted at a later world. -/
theorem wp_snapshot {Q : Held → List Write → Database → World → Prop}
    {F : Held → ε → World → Prop} :
    (rules allowed guarded V).wp Q F snapshot L ws w ↔
      ∀ w', (rules allowed guarded V).Later L w w' → V w' → Q L ws (view ws w'.store) w' :=
  Iff.rfl

theorem wp_lockRow {Q : Held → List Write → Database → World → Prop}
    {F : Held → ε → World → Prop} {k : Key} {m : LockMode} :
    (rules allowed guarded V).wp Q F (lockRow k m) L ws w ↔
      ∀ w', (rules allowed guarded V).Later L w w' → V w' →
        Q ((.row k, m) :: L) ws (view ws w'.store) w' :=
  Iff.rfl

theorem wp_ensure {Q : Held → List Write → Unit → World → Prop} {F : Held → ε → World → Prop}
    {b : Bool} {e : ε} (hQ : b = true → Q L ws () w) (hF : b = false → F L e w) :
    (rules allowed guarded V).wp Q F (ensure b e) L ws w := by
  cases b with
  | true => exact hQ rfl
  | false => exact hF rfl

/-! ## Locking selects -/

section Locking

variable {F : Held → SqlError → World → Prop}

/-- `lock_rows` holds a lock on every row it read, and a row locked by `FOR SHARE` or more is still
as it was read. The rows are locked one by one, so between the first and the last others may have
committed; the loop's invariant is about the rows locked so far, which no longer change. -/
theorem wp_lock_rows {τ β : Type} {Q : Held → List Write → List β → World → Prop} {key : τ → Key}
    {m : LockMode} (hm : LockMode.share.strength ≤ m.strength) {read : Database → τ → β}
    (hread : ∀ db db' x, db.rows.get (key x) = db'.rows.get (key x) → read db x = read db' x)
    {xs : List τ}
    (hQ : ∀ L' w', L ⊆ L' → (rules allowed guarded V).Later L w w' → V w' →
      (∀ x ∈ xs, L'.row (key x) m) → Q L' [] (xs.map (read w'.store)) w') (hv : V w) :
    (rules allowed guarded V).wp Q F (lock_rows key m read xs) L [] w := by
  induction xs generalizing Q L w with
  | nil => exact hQ L w (List.Subset.refl _) .refl hv (by simp)
  | cons x xs ih =>
      intro w' hl hv'
      change (rules allowed guarded V).wp Q F
        (lock_rows key m read xs >>= fun rest => pure (read w'.store x :: rest)) _ [] w'
      rw [Txn.Rules.wp_bind]
      refine ih ?_ hv'
      intro L' w'' hL hl' hv'' hrows
      have hrow : L'.row (key x) m := hL List.mem_cons_self
      have hfrozen : w''.store.rows.get (key x) = w'.store.rows.get (key x) :=
        frozen_row (List.mem_cons_self (a := (Resource.row (key x), m))) hm hl'
      have hsame : read w'.store x = read w''.store x := hread _ _ _ hfrozen.symm
      have hend := hQ L' w'' (fun _ h => hL (List.mem_cons_of_mem _ h))
        (hl.trans (hl'.mono (List.subset_cons_self _ _))) hv''
        (List.forall_mem_cons.mpr ⟨hrow, hrows⟩)
      rw [hsame]
      exact hend

/-- One row, `FOR UPDATE` or `FOR SHARE`. Nothing is returned in two cases, that the snapshot had
no row and that the newest version no longer matches; a proof need not tell them apart. -/
theorem wp_select_locking {k : Key} {Q : Held → List Write → Option (Row k) → World → Prop}
    {m : LockMode} {visible : Database → Row k → Bool} {matches_ : Row k → Bool}
    (hnone : ∀ L' w', L ⊆ L' → (rules allowed guarded V).Later L w w' → V w' → Q L' [] none w')
    (hsome : ∀ L' w' r, L ⊆ L' → (rules allowed guarded V).Later L w w' → V w' →
      L'.row k m → w'.store.rows.get k = some r → matches_ r = true → Q L' [] (some r) w') :
    (rules allowed guarded V).wp Q F (select_locking k m visible matches_) L [] w := by
  rw [select_locking, Txn.Rules.wp_bind, wp_snapshot]
  intro w₁ hl₁ hv₁
  rw [view_nil]
  cases w₁.store.rows.get k with
  | none => exact hnone L w₁ (List.Subset.refl _) hl₁ hv₁
  | some r =>
      dsimp only
      split
      · intro w₂ hl₂ hv₂
        have hsub : L ⊆ (Resource.row k, m) :: L := List.subset_cons_self _ _
        change Q _ [] ((w₂.store.rows.get k).filter matches_) w₂
        cases hr : (w₂.store.rows.get k).filter matches_ with
        | none => exact hnone _ w₂ hsub (hl₁.trans hl₂) hv₂
        | some r' =>
            obtain ⟨hget, hmatch⟩ := Option.filter_eq_some_iff.mp hr
            exact hsome _ w₂ r' hsub (hl₁.trans hl₂) hv₂ List.mem_cons_self hget hmatch
      · exact hnone L w₁ (List.Subset.refl _) hl₁ hv₁

/-- `lock_organization`. With `false` no lock is promised: the organization is not there, or
whoever asks does not see it. -/
theorem wp_lock_organization {Q : Held → List Write → Bool → World → Prop} {s : Settings}
    {o : OrganizationId} {lock : OrganizationLock}
    (hfalse : ∀ L' w', L ⊆ L' → (rules allowed guarded V).Later L w w' → V w' → Q L' [] false w')
    (htrue : ∀ L' w', L ⊆ L' → (rules allowed guarded V).Later L w w' → V w' →
      L'.row (.organization o) lock.mode → Q L' [] true w') :
    (rules allowed guarded V).wp Q F (lock_organization s o lock) L [] w := by
  rw [lock_organization, Txn.Rules.wp_bind]
  refine wp_select_locking hfalse ?_
  intro L' w' r hL hl hv hrow _ _
  exact htrue L' w' hL hl hv hrow

/-- `lock_actor`: a target that was shown is share-locked and exists. A target that is not visible
gives `none`, and with it no lock at all; the callers that treat this as a present actor are the
subject of `ReactivationsClear`. -/
theorem wp_lock_actor {Q : Held → List Write → Option Bool → World → Prop} {s : Settings}
    {a p : ActorId}
    (hQ : ∀ L' w' departed, L ⊆ L' → (rules allowed guarded V).Later L w w' → V w' →
      (∀ b, departed = some b → L'.row (.actor a) .share
        ∧ ∃ r, w'.store.actor a = some r ∧ r.deleted_at.isSome = b) → Q L' [] departed w') :
    (rules allowed guarded V).wp Q F (lock_actor s a p) L [] w := by
  intro w₁ hl₁ hv₁
  change (rules allowed guarded V).wp Q F (lock_rows Key.actor .share _ _ >>= _) L [] w₁
  rw [Txn.Rules.wp_bind]
  refine wp_lock_rows (by decide) ?_ ?_ hv₁
  · intro db db' x h
    simp only [Database.departed, h]
  intro L' w₂ hL hl₂ hv₂ hrows
  change Q L' [] _ w₂
  refine hQ L' w₂ _ hL (hl₁.trans hl₂) hv₂ ?_
  intro b hb
  obtain ⟨row, hfind, rfl⟩ := Option.map_eq_some_iff.mp hb
  obtain ⟨x, hx, rfl⟩ := List.mem_map.mp (List.mem_of_find?_eq_some hfind)
  have hxa : x = a := by simpa using List.find?_some hfind
  subst hxa
  -- The row was there when it was listed, and actors are never deleted.
  have hlisted : (w₁.store.actor x).isSome = true := by
    have := (List.mem_filter.mp hx).2
    simp only [Bool.and_eq_true] at this
    exact this.1.1
  obtain ⟨r, hr⟩ := Option.isSome_iff_exists.mp hlisted
  obtain ⟨r', hr', -, -⟩ := persists (k := .actor x) (.inl rfl) hr hl₂
  exact ⟨hrows x hx, r', hr', by simp [Database.departed, hr']⟩

end Locking

/-! ## Updates -/

section Updates

variable {F : Held → SqlError → World → Prop}

/-- An update in a statement that saw `db`: it misses its row, or it writes the new version of the
newest row that still matches, under a row lock. The two states differ: row security and the first
test look at the snapshot, the second test and `set` at the newest version. -/
theorem wp_update_row {k : Key} {Q : Held → List Write → Option (Row k) → World → Prop}
    {db : Database} {visible : Database → Row k → Bool} {matches_ : Row k → Bool}
    {set : Database → Row k → Except SqlError (Row k)} (hF : ∀ L e w, F L e w) (hv : V w)
    (hk : ∀ r, Write.put k r ∉ ws)
    (hnone : ∀ L' w', L ⊆ L' → (rules allowed guarded V).Later L w w' → V w' →
      (∀ r, db.rows.get k = some r → (visible db r && matches_ r) = true →
        ∀ x, w'.store.rows.get k = some x → matches_ x = false) → Q L' ws none w')
    (hsome : ∀ L' w' old new, L ⊆ L' → (rules allowed guarded V).Later L w w' → V w' →
      L'.row k .noKeyUpdate → w'.store.rows.get k = some old → matches_ old = true →
      set db old = .ok new → Q L' (ws ++ [.put k (some new)]) (some new) w') :
    (rules allowed guarded V).wp Q F (update_row db k visible matches_ set) L ws w := by
  unfold update_row
  split
  case h_1 hdb =>
    refine hnone L w (List.Subset.refl _) .refl hv ?_
    intro r hr
    simp [hdb] at hr
  case h_2 r hdb =>
    split
    case isFalse hvis =>
      refine hnone L w (List.Subset.refl _) .refl hv ?_
      intro r' hr' hvis'
      rw [hdb] at hr'
      cases hr'
      exact absurd hvis' hvis
    case isTrue =>
      rw [Txn.Rules.wp_bind, wp_lockRow]
      intro w' hl hv'
      have hsub : L ⊆ (Resource.row k, LockMode.noKeyUpdate) :: L := List.subset_cons_self _ _
      rw [view_get_of_untouched hk]
      -- The newest version counts from here on: it may be gone, match no more, or be written.
      cases hget : w'.store.rows.get k with
      | none =>
          refine hnone _ w' hsub hl hv' ?_
          intro _ _ _ x hx
          simp [hget] at hx
      | some old =>
          dsimp only
          split
          case isFalse hmatch =>
            refine hnone _ w' hsub hl hv' ?_
            intro _ _ _ x hx
            rw [hget] at hx
            cases hx
            exact Bool.eq_false_iff.mpr hmatch
          case isTrue hmatch =>
            cases hset : set db old with
            | error e => exact hF _ e _
            | ok new => exact hsome _ w' old new hsub hl hv' List.mem_cons_self hget hmatch hset

/-- The same for a statement that takes its own snapshot, at the world `w₁`, and finds its row at a
later one. -/
theorem wp_update {k : Key} {Q : Held → List Write → Option (Row k) → World → Prop}
    {visible : Database → Row k → Bool} {matches_ : Row k → Bool}
    {set : Database → Row k → Except SqlError (Row k)} (hF : ∀ L e w, F L e w)
    (hk : ∀ r, Write.put k r ∉ ws)
    (hnone : ∀ w₁ L' w', (rules allowed guarded V).Later L w w₁ → V w₁ → L ⊆ L' →
      (rules allowed guarded V).Later L w₁ w' → V w' →
      (∀ r, w₁.store.rows.get k = some r → (visible (view ws w₁.store) r && matches_ r) = true →
        ∀ x, w'.store.rows.get k = some x → matches_ x = false) → Q L' ws none w')
    (hsome : ∀ w₁ L' w' old new, (rules allowed guarded V).Later L w w₁ → V w₁ → L ⊆ L' →
      (rules allowed guarded V).Later L w₁ w' → V w' →
      L'.row k .noKeyUpdate → w'.store.rows.get k = some old → matches_ old = true →
      set (view ws w₁.store) old = .ok new → Q L' (ws ++ [.put k (some new)]) (some new) w') :
    (rules allowed guarded V).wp Q F (update k visible matches_ set) L ws w := by
  intro w₁ hl₁ hv₁
  refine wp_update_row hF hv₁ hk ?_ ?_
  · intro L' w' hL hl hv' hmiss
    refine hnone w₁ L' w' hl₁ hv₁ hL hl hv' ?_
    intro r hr hvis
    exact hmiss r ((view_get_of_untouched hk).trans hr) hvis
  · intro L' w' old new hL hl hv'
    exact hsome w₁ L' w' old new hl₁ hv₁ hL hl hv'

end Updates

/-! ## Deletes -/

/-- The writes of a `DELETE` that deletes the rows `ys`. -/
def deletions {τ : Type} (key : τ → Key) (ys : List τ) : List Write :=
  ys.map fun y => .put (key y) none

section Deletes

variable {F : Held → SqlError → World → Prop} {τ : Type} {key : τ → Key}
variable {still : Database → τ → Bool}

/-- A delete ends with all its rows locked, and has deleted exactly those that still match where it
ends. By induction on the rows found; one that is locked already cannot change while the others are
waited for, so the matches can all be read at the end. -/
theorem wp_delete_rows {Q : Held → List Write → List τ → World → Prop} {xs : List τ} (hv : V w)
    (hstill : ∀ db db' x, db.rows.get (key x) = db'.rows.get (key x) → still db x = still db' x)
    (hnodup : (xs.map key).Nodup) (hws : ∀ x ∈ xs, ∀ r, Write.put (key x) r ∉ ws)
    (hQ : ∀ L' w', L ⊆ L' → (rules allowed guarded V).Later L w w' → V w' →
      (∀ x ∈ xs, L'.row (key x) .update) →
      Q L' (ws ++ deletions key (xs.filter (still w'.store))) (xs.filter (still w'.store)) w') :
    (rules allowed guarded V).wp Q F (delete_rows key still xs) L ws w := by
  induction xs generalizing Q L ws w with
  | nil =>
      have hend := hQ L w (List.Subset.refl _) .refl hv (by simp)
      simp only [deletions, List.filter_nil, List.map_nil, List.append_nil] at hend
      exact hend
  | cons x xs ih =>
      rw [List.map_cons, List.nodup_cons] at hnodup
      rw [List.forall_mem_cons] at hws
      intro w₁ hl₁ hv₁
      have hL₁ : L ⊆ (Resource.row (key x), LockMode.update) :: L := List.subset_cons_self _ _
      have hnow : still (view ws w₁.store) x = still w₁.store x :=
        hstill _ _ _ (view_get_of_untouched hws.1)
      -- Under its lock the first row is at the end as it is now.
      have hend : ∀ {L' : Held} {w'}, (Resource.row (key x), LockMode.update) :: L ⊆ L' →
          (rules allowed guarded V).Later ((Resource.row (key x), LockMode.update) :: L) w₁ w' →
          L'.row (key x) .update ∧ still w'.store x = still w₁.store x :=
        fun hL hl => ⟨hL List.mem_cons_self,
          hstill _ _ _ (frozen_row List.mem_cons_self (by decide) hl)⟩
      change (rules allowed guarded V).wp Q F
        (if still (view ws w₁.store) x then emit (.put (key x) none) >>= fun _ =>
          delete_rows key still xs >>= fun rest => pure (x :: rest)
          else delete_rows key still xs) _ ws w₁
      rw [hnow]
      split
      case isTrue hx =>
        change (rules allowed guarded V).wp Q F (delete_rows key still xs >>= _) _ _ w₁
        rw [Txn.Rules.wp_bind]
        refine ih hv₁ hnodup.2 ?_ ?_
        · intro y hy r hmem
          obtain hmem | hmem := List.mem_append.mp hmem
          · exact hws.2 y hy r hmem
          · have hkey : key y = key x := (Write.put.inj (List.mem_singleton.mp hmem)).1
            exact hnodup.1 (hkey ▸ List.mem_map_of_mem hy)
        · intro L₂ w₂ hL₂ hl₂ hv₂ hrows
          obtain ⟨hrow, hsame⟩ := hend hL₂ hl₂
          have := hQ L₂ w₂ (List.Subset.trans hL₁ hL₂) (hl₁.trans (hl₂.mono hL₁)) hv₂
            (List.forall_mem_cons.mpr ⟨hrow, hrows⟩)
          simp only [List.filter_cons, hsame, hx, if_true, deletions, List.map_cons] at this
          rw [List.append_assoc]
          exact this
      case isFalse hx =>
        refine ih hv₁ hnodup.2 hws.2 ?_
        intro L₂ w₂ hL₂ hl₂ hv₂ hrows
        obtain ⟨hrow, hsame⟩ := hend hL₂ hl₂
        have := hQ L₂ w₂ (List.Subset.trans hL₁ hL₂) (hl₁.trans (hl₂.mono hL₁)) hv₂
          (List.forall_mem_cons.mpr ⟨hrow, hrows⟩)
        simp only [List.filter_cons, hsame, hx, Bool.false_eq_true, if_false] at this
        exact this

/-- `DELETE`, whose statement found its rows at the world `w₁`. A row that has come since is not
deleted, and one that no longer matches is locked and left. -/
theorem wp_delete_where {Q : Held → List Write → List τ → World → Prop}
    {found : Database → List τ}
    (hstill : ∀ db db' x, db.rows.get (key x) = db'.rows.get (key x) → still db x = still db' x)
    (hnodup : ∀ db, ((found db).map key).Nodup)
    (hws : ∀ w₁, (rules allowed guarded V).Later L w w₁ → V w₁ →
      ∀ x ∈ found (view ws w₁.store), ∀ r, Write.put (key x) r ∉ ws)
    (hQ : ∀ w₁ L' w', (rules allowed guarded V).Later L w w₁ → V w₁ → L ⊆ L' →
      (rules allowed guarded V).Later L w₁ w' → V w' →
      (∀ x ∈ found (view ws w₁.store), L'.row (key x) .update) →
      Q L' (ws ++ deletions key ((found (view ws w₁.store)).filter (still w'.store)))
        ((found (view ws w₁.store)).filter (still w'.store)) w') :
    (rules allowed guarded V).wp Q F (delete_where found key still) L ws w := by
  intro w₁ hl₁ hv₁
  exact wp_delete_rows hv₁ hstill (hnodup _) (hws w₁ hl₁ hv₁)
    fun L' w' hL hl hv hrows => hQ w₁ L' w' hl₁ hv₁ hL hl hv hrows

end Deletes

/-! ## Inserts -/

section Inserts

variable {F : Held → SqlError → World → Prop}

/-- A checked reference is locked against deletion and there. The check sees the transaction's own
writes, so the row may be one that it has just inserted. -/
theorem wp_check_reference {Q : Held → List Write → Unit → World → Prop} {ref : Reference}
    (hF : ∀ L e w, F L e w)
    (hQ : ∀ L' w', L ⊆ L' → (rules allowed guarded V).Later L w w' → V w' →
      L'.row ref.key .keyShare → (view ws w'.store).rows.get ref.key ≠ none → Q L' ws () w') :
    (rules allowed guarded V).wp Q F (check_reference ref) L ws w := by
  intro w₁ hl₁ hv₁
  change (rules allowed guarded V).wp Q F (ensure _ _ >>= _) L ws w₁
  rw [Txn.Rules.wp_bind]
  refine wp_ensure (fun _ => ?_) fun _ => hF _ _ _
  intro w₂ hl₂ hv₂
  change (rules allowed guarded V).wp Q F (ensure _ _) _ ws w₂
  refine wp_ensure (fun hany => ?_) fun _ => hF _ _ _
  refine hQ _ w₂ (List.subset_cons_self _ _) (hl₁.trans hl₂) hv₂ List.mem_cons_self ?_
  intro hnone
  have hsome : ((view ws w₂.store).rows.get ref.key).any ref.accepts = true := hany
  rw [hnone] at hsome
  cases hsome

/-- All foreign keys of a row, one after the other. What was found for the first still holds after
the last: the lock that the check takes lets nobody delete the row. -/
theorem wp_references {Q : Held → List Write → Unit → World → Prop} {refs : List Reference}
    (hF : ∀ L e w, F L e w) (hv : V w)
    (hQ : ∀ L' w', L ⊆ L' → (rules allowed guarded V).Later L w w' → V w' →
      (∀ ref ∈ refs, L'.row ref.key .keyShare ∧ (view ws w'.store).rows.get ref.key ≠ none) →
      Q L' ws () w') :
    (rules allowed guarded V).wp Q F (refs.forM check_reference) L ws w := by
  refine Txn.Rules.wp_mono (Txn.Rules.wp_forM (fun done (L' : Held) ws' w' => ws' = ws ∧ L ⊆ L'
      ∧ (rules allowed guarded V).Later L w w' ∧ V w'
      ∧ ∀ ref ∈ done, L'.row ref.key .keyShare ∧ (view ws w'.store).rows.get ref.key ≠ none)
    ⟨rfl, List.Subset.refl _, .refl, hv, by simp⟩ ?_) ?_ fun _ _ _ h => h
  · rintro done ref rest - L₁ ws₁ w₁ ⟨rfl, hL₁, hl₁, -, hdone⟩
    refine wp_check_reference hF ?_
    intro L₂ w₂ hL₂ hl₂ hv₂ hrow hget
    refine ⟨rfl, List.Subset.trans hL₁ hL₂, hl₁.trans (hl₂.mono hL₁), hv₂, ?_⟩
    intro ref' hmem
    obtain hmem | hmem := List.mem_append.mp hmem
    · obtain ⟨hrow', hget'⟩ := hdone ref' hmem
      refine ⟨hL₂ hrow', view_get_ne_none hget' fun hold => ?_⟩
      obtain ⟨x, hx⟩ := Option.ne_none_iff_exists'.mp hold
      obtain ⟨y, hy, -, -⟩ := persists (.inr ⟨_, hrow'⟩) hx hl₂
      simp [hy]
    · cases List.mem_singleton.mp hmem
      exact ⟨hrow, hget⟩
  · rintro L' ws' - w' ⟨rfl, hL', hl', hv', hdone⟩
    exact hQ L' w' hL' hl' hv' hdone

/-- The entries of a row in the unique indexes. What the entries are is of no concern to the
guarantees; that nobody else has them is shown from the text, in `Fukulow.Uniqueness`. -/
theorem wp_enter_indexes {Q : Held → List Write → Unit → World → Prop}
    {indexes : List UniqueIndex} (hF : ∀ L e w, F L e w) (hv : V w)
    (hQ : ∀ L' w', L ⊆ L' → (rules allowed guarded V).Later L w w' → V w' → Q L' ws () w') :
    (rules allowed guarded V).wp Q F (indexes.forM enter_index) L ws w := by
  refine Txn.Rules.wp_mono (Txn.Rules.wp_forM (fun _ (L' : Held) ws' w' => ws' = ws ∧ L ⊆ L'
      ∧ (rules allowed guarded V).Later L w w' ∧ V w')
    ⟨rfl, List.Subset.refl _, .refl, hv⟩ ?_) ?_ fun _ _ _ h => h
  · rintro _ index _ - L₁ ws₁ w₁ ⟨rfl, hL₁, hl₁, -⟩ w₂ hl₂ hv₂
    change (rules allowed guarded V).wp _ F (ensure _ _) _ ws₁ w₂
    refine wp_ensure (fun _ => ?_) fun _ => hF _ _ _
    exact ⟨rfl, List.Subset.trans hL₁ (List.subset_cons_self _ _), hl₁.trans (hl₂.mono hL₁), hv₂⟩
  · rintro L' ws' - w' ⟨rfl, hL', hl', hv'⟩
    exact hQ L' w' hL' hl' hv'

/-- Where an insert of `r` as row `k` ends: the row was free, is locked, and everything it
references is locked against deletion. -/
structure Inserted (L' : Held) (ws : List Write) (w' : World) (k : Key) (r : Row k)
    (references : List Reference) : Prop where
  row : L'.row k .update
  new : w'.store.rows.get k = none
  references : ∀ ref ∈ references, L'.row ref.key .keyShare
    ∧ (view (ws ++ [.put k (some r)]) w'.store).rows.get ref.key ≠ none

variable {k : Key} {r : Row k} {admits : Database → Except SqlError Unit}
variable {indexes : List UniqueIndex} {references : List Reference}

/-- An insert in a statement that saw `db`. It waits for the key, so whether the key is taken is
read at a later world than the one whose snapshot the policies have judged. -/
theorem wp_insert_row {Q : Held → List Write → Bool → World → Prop} {db : Database}
    (hF : ∀ L e w, F L e w) (hk : ∀ x, Write.put k x ∉ ws)
    (htaken : ∀ L' w', L ⊆ L' → (rules allowed guarded V).Later L w w' → V w' →
      L'.row k .update → w'.store.rows.get k ≠ none → Q L' ws false w')
    (hdone : ∀ L' w', L ⊆ L' → (rules allowed guarded V).Later L w w' → V w' →
      admits db = .ok () → Inserted L' ws w' k r references →
      Q L' (ws ++ [.put k (some r)]) true w') :
    (rules allowed guarded V).wp Q F (insert_row db k r admits indexes references) L ws w := by
  unfold insert_row
  cases hadm : admits db with
  | error e => exact hF _ e _
  | ok u =>
      intro w₁ hl₁ hv₁
      have hL₁ : L ⊆ (Resource.row k, LockMode.update) :: L := List.subset_cons_self _ _
      change (rules allowed guarded V).wp Q F
        (if ((view ws w₁.store).rows.get k).isSome then pure false else
          indexes.forM enter_index >>= fun _ => emit (.put k (some r)) >>= fun _ =>
            references.forM check_reference >>= fun _ => pure true) _ ws w₁
      rw [view_get_of_untouched hk]
      split
      case isTrue hsome =>
        refine htaken _ w₁ hL₁ hl₁ hv₁ List.mem_cons_self ?_
        intro hnone
        simp [hnone] at hsome
      case isFalse hnone =>
        rw [Txn.Rules.wp_bind]
        refine wp_enter_indexes hF hv₁ ?_
        intro L₂ w₂ hL₂ hl₂ hv₂
        change (rules allowed guarded V).wp Q F (references.forM check_reference >>= _) L₂ _ w₂
        rw [Txn.Rules.wp_bind]
        refine wp_references hF hv₂ ?_
        intro L₃ w₃ hL₃ hl₃ hv₃ hrefs
        -- The lock on the row is held from before the look, so the row is still new at the end.
        have hrow₂ : L₂.row k .update := hL₂ List.mem_cons_self
        have hget : w₃.store.rows.get k = none := by
          rw [frozen_row hrow₂ (by decide) hl₃, frozen_row List.mem_cons_self (by decide) hl₂]
          simpa using hnone
        have hl : (rules allowed guarded V).Later L w w₃ :=
          hl₁.trans ((hl₂.mono hL₁).trans (hl₃.mono (List.Subset.trans hL₁ hL₂)))
        exact hdone L₃ w₃ (List.Subset.trans hL₁ (List.Subset.trans hL₂ hL₃)) hl hv₃ hadm
          ⟨hL₃ hrow₂, hget, hrefs⟩

/-- `INSERT`, whose statement took its snapshot at the world `w₁`. A taken key is an error here,
and errors promise nothing. -/
theorem wp_insert {Q : Held → List Write → Unit → World → Prop} {pkey : String}
    (hF : ∀ L e w, F L e w) (hk : ∀ x, Write.put k x ∉ ws)
    (hdone : ∀ w₁ L' w', (rules allowed guarded V).Later L w w₁ → V w₁ → L ⊆ L' →
      (rules allowed guarded V).Later L w₁ w' → V w' → admits (view ws w₁.store) = .ok () →
      Inserted L' ws w' k r references → Q L' (ws ++ [.put k (some r)]) () w') :
    (rules allowed guarded V).wp Q F (insert k r pkey admits indexes references) L ws w := by
  intro w₁ hl₁ hv₁
  change (rules allowed guarded V).wp Q F
    (insert_row _ k r admits indexes references >>= fun b => ensure b (.unique pkey)) L ws w₁
  rw [Txn.Rules.wp_bind]
  refine wp_insert_row hF hk ?_ ?_
  · intro L' w' _ _ _ _ _
    exact hF L' _ w'
  · intro L' w' hL hl hv hadm hins
    exact hdone w₁ L' w' hl₁ hv₁ hL hl hv hadm hins

/-- `INSERT ... ON CONFLICT DO NOTHING`: a taken key is a result. What the caller then knows is
that the row is there and locked, which is what the repeated sending of a message relies on. -/
theorem wp_insert_or_nothing {Q : Held → List Write → Bool → World → Prop}
    (hF : ∀ L e w, F L e w) (hk : ∀ x, Write.put k x ∉ ws)
    (htaken : ∀ L' w', L ⊆ L' → (rules allowed guarded V).Later L w w' → V w' →
      L'.row k .update → w'.store.rows.get k ≠ none → Q L' ws false w')
    (hdone : ∀ w₁ L' w', (rules allowed guarded V).Later L w w₁ → V w₁ → L ⊆ L' →
      (rules allowed guarded V).Later L w₁ w' → V w' → admits (view ws w₁.store) = .ok () →
      Inserted L' ws w' k r references → Q L' (ws ++ [.put k (some r)]) true w') :
    (rules allowed guarded V).wp Q F (insert_or_nothing k r admits indexes references) L ws w := by
  intro w₁ hl₁ hv₁
  refine wp_insert_row hF hk ?_ ?_
  · intro L' w' hL hl hv
    exact htaken L' w' hL (hl₁.trans hl) hv
  · intro L' w' hL hl hv hadm hins
    exact hdone w₁ L' w' hl₁ hv₁ hL hl hv hadm hins

/-- `INSERT ... SELECT`: the source is read at the snapshot of the statement, and without a row in
it nothing is inserted. -/
theorem wp_insert_from {Q : Held → List Write → Option Bool → World → Prop}
    {source : Database → Bool} (hF : ∀ L e w, F L e w) (hk : ∀ x, Write.put k x ∉ ws)
    (hnone : ∀ w₁, (rules allowed guarded V).Later L w w₁ → V w₁ →
      source (view ws w₁.store) = false → Q L ws none w₁)
    (htaken : ∀ L' w', L ⊆ L' → (rules allowed guarded V).Later L w w' → V w' →
      Q L' ws (some false) w')
    (hdone : ∀ w₁ L' w', (rules allowed guarded V).Later L w w₁ → V w₁ → L ⊆ L' →
      (rules allowed guarded V).Later L w₁ w' → V w' → admits (view ws w₁.store) = .ok () →
      Inserted L' ws w' k r references → Q L' (ws ++ [.put k (some r)]) (some true) w') :
    (rules allowed guarded V).wp Q F (insert_from source k r admits indexes references) L ws w := by
  intro w₁ hl₁ hv₁
  change (rules allowed guarded V).wp Q F
    (if source (view ws w₁.store) then
      insert_row (view ws w₁.store) k r admits indexes references >>= fun b => pure (some b)
      else pure none) L ws w₁
  split
  case isFalse hsource => exact hnone w₁ hl₁ hv₁ (Bool.eq_false_iff.mpr hsource)
  case isTrue =>
    rw [Txn.Rules.wp_bind]
    refine wp_insert_row hF hk ?_ ?_
    · intro L' w' hL hl hv _ _
      exact htaken L' w' hL (hl₁.trans hl) hv
    · intro L' w' hL hl hv hadm hins
      exact hdone w₁ L' w' hl₁ hv₁ hL hl hv hadm hins

/-- `Event::write`: the policy admitted the record at the world `w₁`. Its foreign keys leave a lock
on the organization and one on the performer, which is what stands behind the records of a commit.
-/
theorem wp_event_write {Q : Held → List Write → Unit → World → Prop} {e : Event} {s : Settings}
    {o : OrganizationId} {p : ActorId} (hF : ∀ L e w, F L e w)
    (hQ : ∀ w₁ L' w', (rules allowed guarded V).Later L w w₁ → V w₁ →
      audit_events_insert s (view ws w₁.store) ⟨o, p, e⟩ = true → L ⊆ L' →
      (rules allowed guarded V).Later L w₁ w' → V w' → L'.row (.organization o) .keyShare →
      L'.row (.actor p) .keyShare → Q L' (ws ++ [.log ⟨o, p, e⟩]) () w') :
    (rules allowed guarded V).wp Q F (e.write s o p) L ws w := by
  intro w₁ hl₁ hv₁
  change (rules allowed guarded V).wp Q F (ensure _ _ >>= _) L ws w₁
  rw [Txn.Rules.wp_bind]
  refine wp_ensure (fun hadm => ?_) fun _ => hF _ _ _
  change (rules allowed guarded V).wp Q F (check_reference _ >>= _) L (ws ++ [_]) w₁
  rw [Txn.Rules.wp_bind]
  refine wp_check_reference hF ?_
  intro L₂ w₂ hL₂ hl₂ hv₂ horg _
  refine wp_check_reference hF ?_
  intro L₃ w₃ hL₃ hl₃ hv₃ hactor _
  exact hQ w₁ L₃ w₃ hl₁ hv₁ hadm (List.Subset.trans hL₂ hL₃) (hl₂.trans (hl₃.mono hL₂)) hv₃
    (hL₃ horg) hactor

/-- One record for each element of a list, all in one organization. The lock on it is there when
any record was written. -/
theorem wp_event_writes {Q : Held → List Write → Unit → World → Prop} {τ : Type} {xs : List τ}
    {e : τ → Event} {s : Settings} {o : OrganizationId} {p : ActorId} (hF : ∀ L e w, F L e w)
    (hv : V w)
    (hQ : ∀ L' w', L ⊆ L' → (rules allowed guarded V).Later L w w' → V w' →
      (xs ≠ [] → L'.row (.organization o) .keyShare) →
      Q L' (ws ++ xs.map fun x => .log ⟨o, p, e x⟩) () w') :
    (rules allowed guarded V).wp Q F (xs.forM fun x => (e x).write s o p) L ws w := by
  refine Txn.Rules.wp_mono (Txn.Rules.wp_forM
    (fun done (L' : Held) ws' w' => ws' = ws ++ done.map (fun x => .log ⟨o, p, e x⟩) ∧ L ⊆ L'
      ∧ (rules allowed guarded V).Later L w w' ∧ V w'
      ∧ (done ≠ [] → L'.row (.organization o) .keyShare))
    ⟨by simp, List.Subset.refl _, .refl, hv, by simp⟩ ?_) ?_ fun _ _ _ h => h
  · rintro done x rest - L₁ ws₁ w₁ ⟨rfl, hL₁, hl₁, -, -⟩
    refine wp_event_write hF ?_
    intro w₂ L₃ w₃ hl₂ hv₂ _ hL₃ hl₃ hv₃ horg _
    refine ⟨by simp, List.Subset.trans hL₁ hL₃, ?_, hv₃, fun _ => horg⟩
    exact hl₁.trans (Txn.Rules.Later.mono hL₁ (hl₂.trans hl₃))
  · rintro L' ws' - w' ⟨rfl, hL', hl', hv', horg⟩
    exact hQ L' w' hL' hl' hv' horg

end Inserts

end Fukulow
