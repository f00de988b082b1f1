/-
The write discipline: which locks stand behind a write.

Every row belongs to at most one organization (`tenant`) and to at most one person
(`person`), and neither ever changes. A write is `Covered` when its transaction holds
the row in a writing mode, some lock on the organization of the row, and, when the row
is new, some lock on the person it is about; foreign keys give the last two. Only rows
of four tables are ever deleted, three of them by departures alone. What the operations
rely on while they hold their locks follows from these facts alone.

`activation` is the one point the discipline leaves open: a membership becomes active
under a lock on its actor, or by `reactivate_member`.
-/
import Fukulow.Calls
import Mathlib.Data.List.Induction

set_option autoImplicit false

namespace Fukulow

open Txn (LockMode)

/-! ## Whose row it is -/

/-- The organization a row belongs to. -/
def tenant : (k : Key) → Row k → Option OrganizationId
  | .organization o, _ => some o
  | .member o _, _ => some o
  | .team _, r => some r.organization_id
  | .teamMember _ _, r => some r.organization_id
  | .channel _, r => some r.organization_id
  | .channelMember _ _, r => some r.organization_id
  | .message _, r => some r.organization_id
  | .invite _, r => some r.organization_id
  | .actor _, _ | .user _, _ | .session _, _ => none

/-- The actor a row is about. -/
def person : (k : Key) → Row k → Option ActorId
  | .actor a, _ => some a
  | .user a, _ => some a
  | .member _ a, _ => some a
  | .teamMember _ a, _ => some a
  | .channelMember _ a, _ => some a
  | .message _, r => some r.sender_actor_id
  | .invite _, r => some r.created_by_actor_id
  | .session _, r => some r.actor_id
  | .organization _, _ | .team _, _ | .channel _, _ => none

/-- The tables with a `DELETE` grant, or a cascade: `users` and its `sessions`, and the
two kinds of listing. -/
def Key.deletable : Key → Bool
  | .user _ | .teamMember _ _ | .channelMember _ _ | .session _ => true
  | _ => false

/-- The tables with an `UPDATE` grant: rows of the others stay as they were inserted. -/
def Key.updatable : Key → Bool
  | .user _ | .team _ | .channelMember _ _ | .message _ => false
  | _ => true

/-! ## Own writes on top of a committed state -/

/-- The state a transaction sees. -/
abbrev view (ws : List Write) (db : Database) : Database := Txn.Prog.overlay Write.apply ws db

@[simp] theorem view_nil (db : Database) : view [] db = db := rfl

theorem view_append (ws vs : List Write) (db : Database) :
    view (ws ++ vs) db = view vs (view ws db) := Txn.Prog.overlay_append _ _ _ _

/-- A row of the view is the committed row or a write of it. By induction on the writes: the last
one of a row wins. -/
theorem view_get (ws : List Write) (db : Database) (k : Key) :
    (view ws db).rows.get k = db.rows.get k ∨ Write.put k ((view ws db).rows.get k) ∈ ws := by
  induction ws using List.reverseRecOn with
  | nil => exact .inl rfl
  | append_singleton ws u ih =>
      rw [view_append]
      cases u with
      | log row =>
          obtain h | h := ih
          · exact .inl h
          · exact .inr (List.mem_append_left _ h)
      | put k' r =>
          by_cases hk : k = k'
          · subst hk
            right
            simp [view]
          · have hget : (view [Write.put k' r] (view ws db)).rows.get k = (view ws db).rows.get k :=
              Txn.Store.get_put_of_ne hk
            rw [hget]
            obtain h | h := ih
            · exact .inl h
            · exact .inr (List.mem_append_left _ h)

/-- A row that is not written is the committed row. -/
theorem view_get_of_untouched {ws : List Write} {db : Database} {k : Key}
    (h : ∀ r, Write.put k r ∉ ws) : (view ws db).rows.get k = db.rows.get k :=
  (view_get ws db k).resolve_right (h _)

/-- A row that is written reads the same on top of any committed state. So what a transaction has
written itself it can rely on, whatever commits meanwhile. -/
theorem view_get_of_touched {ws : List Write} {k : Key} {r : Option (Row k)}
    (h : Write.put k r ∈ ws) (db db' : Database) :
    (view ws db).rows.get k = (view ws db').rows.get k := by
  induction ws generalizing db db' r with
  | nil => exact absurd h List.not_mem_nil
  | cons u ws ih =>
      by_cases hmem : ∃ r', Write.put k r' ∈ ws
      · obtain ⟨r', hr'⟩ := hmem
        exact ih hr' _ _
      · rw [show view (u :: ws) db = view ws (u.apply db) from rfl,
          show view (u :: ws) db' = view ws (u.apply db') from rfl,
          view_get_of_untouched fun r' hr' => hmem ⟨r', hr'⟩,
          view_get_of_untouched fun r' hr' => hmem ⟨r', hr'⟩]
        have hu : u = Write.put k r :=
          ((List.mem_cons.mp h).resolve_right fun hr => hmem ⟨r, hr⟩).symm
        rw [hu]
        exact (Txn.Store.get_put_self _ _ _).trans (Txn.Store.get_put_self _ _ _).symm

/-- A row that a transaction sees is there later too, when the committed row is: foreign keys that
were checked early are good at the commit. -/
theorem view_get_ne_none {ws : List Write} {db db' : Database} {k : Key}
    (h : (view ws db).rows.get k ≠ none) (hmono : db.rows.get k ≠ none → db'.rows.get k ≠ none) :
    (view ws db').rows.get k ≠ none := by
  by_cases hmem : ∃ r, Write.put k r ∈ ws
  · obtain ⟨r, hr⟩ := hmem
    rwa [view_get_of_touched hr db' db]
  · have huntouched : ∀ r, Write.put k r ∉ ws := fun r hr => hmem ⟨r, hr⟩
    rw [view_get_of_untouched huntouched] at h ⊢
    exact hmono h

/-- A row that is only written one way is written that way, however often. -/
theorem view_get_of_put {ws : List Write} {db : Database} {k : Key} {r : Option (Row k)}
    (hmem : Write.put k r ∈ ws) (honly : ∀ r', Write.put k r' ∈ ws → r' = r) :
    (view ws db).rows.get k = r := by
  induction ws using List.reverseRecOn with
  | nil => exact absurd hmem List.not_mem_nil
  | append_singleton ws u ih =>
      rw [view_append]
      by_cases hu : ∃ r', u = Write.put k r'
      · obtain ⟨r', rfl⟩ := hu
        rw [honly r' (by simp)]
        exact Txn.Store.get_put_self _ _ _
      · have hget : (view [u] (view ws db)).rows.get k = (view ws db).rows.get k :=
          view_get_of_untouched (by
            intro r' hr'
            exact hu ⟨r', (List.mem_singleton.mp hr').symm⟩)
        rw [hget]
        refine ih ?_ fun r' hr' => honly r' (List.mem_append_left _ hr')
        exact (List.mem_append.mp hmem).resolve_right fun h => hu ⟨r, (List.mem_singleton.mp h).symm⟩

@[simp] theorem view_put_active (o : OrganizationId) (a : ActorId) (r : Option MemberRow)
    (db : Database) : (view [.put (.member o a) r] db).active o a = r.any fun r => r.status = .active :=
  congrArg (Option.any _) (Txn.Store.get_put_self _ _ _)

/-- The audit records among some writes. -/
def logs (ws : List Write) : List AuditRow :=
  ws.filterMap fun
    | .log row => some row
    | .put _ _ => none

@[simp] theorem logs_nil : logs [] = [] := rfl
@[simp] theorem logs_put (k : Key) (r : Option (Row k)) (ws : List Write) :
    logs (.put k r :: ws) = logs ws := rfl
@[simp] theorem logs_log (row : AuditRow) (ws : List Write) :
    logs (.log row :: ws) = row :: logs ws := rfl
@[simp] theorem logs_append (ws vs : List Write) : logs (ws ++ vs) = logs ws ++ logs vs :=
  List.filterMap_append

theorem mem_logs {ws : List Write} {row : AuditRow} : row ∈ logs ws ↔ Write.log row ∈ ws := by
  simp only [logs, List.mem_filterMap]
  constructor
  · rintro ⟨u, hu, hrow⟩
    cases u with
    | put k r => cases hrow
    | log row' => cases hrow; exact hu
  · exact fun h => ⟨_, h, rfl⟩

theorem view_audit (ws : List Write) (db : Database) :
    (view ws db).audit_events = db.audit_events ++ logs ws := by
  induction ws generalizing db with
  | nil => simp [view]
  | cons u ws ih =>
      rw [show view (u :: ws) db = view ws (u.apply db) from rfl, ih]
      cases u <;> simp

/-! ## Covered writes -/

/-- The locks behind one write of the call `c`, which holds `L` and commits at `db`. -/
structure Covered (c : Call) (L : Held) (db : Database) (k : Key) (r : Option (Row k)) : Prop where
  row : ∃ m : LockMode, m.writes ∧ L.row k m
  organization : ∀ x o, (db.rows.get k = some x ∨ r = some x) → tenant k x = some o →
    L.any (.organization o)
  actor : db.rows.get k = none → ∀ x a, r = some x → person k x = some a → L.any (.actor a)
  kept : r = none → k.deletable = true ∧ L.row k .update
  departure : r = none → (∀ t b, k ≠ .teamMember t b) → ∀ x a, db.rows.get k = some x →
    person k x = some a → L.row (.actor a) .update
  same : ∀ x y, db.rows.get k = some x → r = some y → tenant k y = tenant k x ∧ person k y = person k x
  fixed : ∀ y, r = some y → k.updatable = false → db.rows.get k = none
  activation : ∀ o a, k = .member o a → (view [.put k r] db).active o a = true →
    db.active o a = true ∨ L.any (.actor a) ∨ ∃ p, c = .reactivate_member p o a

/-- Every write of the call is covered. -/
def Disciplined (c : Call) (L : Held) (ws : List Write) (db : Database) : Prop :=
  ∀ k r, Write.put k r ∈ ws → Covered c L db k r

theorem Disciplined.nil (c : Call) (L : Held) (db : Database) : Disciplined c L [] db :=
  fun _ _ h => absurd h List.not_mem_nil

theorem Disciplined.cons_put {c : Call} {L : Held} {ws : List Write} {db : Database} {k : Key}
    {r : Option (Row k)} (h : Covered c L db k r) (hs : Disciplined c L ws db) :
    Disciplined c L (.put k r :: ws) db := by
  intro k' r' hmem
  obtain heq | hmem := List.mem_cons.mp hmem
  · cases heq
    exact h
  · exact hs k' r' hmem

theorem Disciplined.cons_log {c : Call} {L : Held} {ws : List Write} {db : Database}
    {row : AuditRow} (hs : Disciplined c L ws db) : Disciplined c L (.log row :: ws) db := by
  intro k r hmem
  exact hs k r ((List.mem_cons.mp hmem).resolve_left (by simp))

/-! ## The three ways a row is covered -/

/-- A new row whose organization and person are locked. All operations but `reactivate_member` make
a membership active by inserting it, so the lock on the person covers the activation. -/
theorem Covered.insert {c : Call} {L : Held} {db : Database} {k : Key} {x : Row k}
    (hrow : L.row k .update) (hnew : db.rows.get k = none)
    (horg : ∀ o, tenant k x = some o → L.any (.organization o))
    (hperson : ∀ a, person k x = some a → L.any (.actor a)) : Covered c L db k (some x) where
  row := ⟨.update, by decide, hrow⟩
  organization := by
    rintro y o (hy | hy) ho
    · simp [hnew] at hy
    · cases hy
      exact horg o ho
  actor := by
    rintro - y a hy ha
    cases hy
    exact hperson a ha
  kept h := by cases h
  departure h := by cases h
  same y _ hy := by simp [hnew] at hy
  fixed _ _ _ := hnew
  activation := by
    rintro o a rfl -
    exact .inr (.inl (hperson a rfl))

/-- An update that keeps whose row it is, and activates no membership unless the person is locked
or the call is the one that does without. -/
theorem Covered.update {c : Call} {L : Held} {db : Database} {k : Key} {x y : Row k} {m : LockMode}
    (hk : k.updatable = true) (hm : m.writes) (hrow : L.row k m) (hold : db.rows.get k = some x)
    (horg : ∀ o, tenant k x = some o → L.any (.organization o))
    (hsame : tenant k y = tenant k x ∧ person k y = person k x)
    (hact : ∀ o a, k = .member o a → (view [.put k (some y)] db).active o a = true →
      db.active o a = true ∨ L.any (.actor a) ∨ ∃ p, c = .reactivate_member p o a) :
    Covered c L db k (some y) where
  row := ⟨m, hm, hrow⟩
  organization := by
    rintro z o (hz | hz) ho
    · rw [hold] at hz
      cases hz
      exact horg o ho
    · cases hz
      exact horg o (hsame.1 ▸ ho)
  actor h := by simp [hold] at h
  kept h := by cases h
  departure h := by cases h
  same := by
    intro z z' hz hz'
    rw [hold] at hz
    cases hz
    cases hz'
    exact hsame
  fixed := by
    intro _ _ hfixed
    rw [hk] at hfixed
    cases hfixed
  activation := hact

/-- The deletion of a team membership, the only one that needs no lock on the person. -/
theorem Covered.delete {c : Call} {L : Held} {db : Database} {t : TeamId} {a : ActorId}
    (hrow : L.row (.teamMember t a) .update)
    (horg : ∀ x, db.teamMember t a = some x → L.any (.organization x.organization_id)) :
    Covered c L db (.teamMember t a) none where
  row := ⟨.update, by decide, hrow⟩
  organization := by
    rintro x o (hx | hx) ho
    · cases ho
      exact horg x hx
    · cases hx
  actor _ x a h := by cases h
  kept _ := ⟨rfl, hrow⟩
  departure _ h := absurd rfl (h t a)
  same _ _ _ h := by cases h
  fixed _ h := by cases h
  activation := by rintro _ _ ⟨⟩

end Fukulow
