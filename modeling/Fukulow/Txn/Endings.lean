/-
What a call can end as, whatever it reads.

`Yields` forgets the company: each read and each lock shows the program some state or other.
Every call of every run ends as its program yields, and some facts about endings need no more
than that: a program that writes nothing commits nothing, and what a call answers was made
from a result when it committed and from an error when it did not.
-/
import Fukulow.Txn.Indexes
import Fukulow.Txn.Runs
import Mathlib.Data.List.Induction
import Mathlib.Data.List.Infix

set_option autoImplicit false

namespace Txn

variable {σ ω ρ μ γ ε α β : Type}

/-- A history that has grown by one entry, cut at an entry: it is an old one, or the new one with
all the others before it. -/
theorem cut_last {η : Type} {l pre post : List η} {a e : η} (h : l ++ [a] = pre ++ e :: post) :
    (∃ post', l = pre ++ e :: post') ∨ pre = l ∧ e = a := by
  induction post using List.reverseRecOn with
  | nil =>
      obtain ⟨hl, ha⟩ := List.append_inj' h rfl
      exact .inr ⟨hl.symm, (List.singleton_inj.mp ha).symm⟩
  | append_singleton post b _ =>
      rw [← List.cons_append, ← List.append_assoc] at h
      exact .inl ⟨post, (List.append_inj' h rfl).1⟩

/-- The program can end as `o`, with the writes `ws` made before. -/
inductive Prog.Yields : Prog σ ω ρ μ β β → List ω → Outcome ω β → Prop where
  | pure {b ws} : Yields (.pure b) ws (.committed ws b)
  | throw {b ws} : Yields (.throw b) ws (.failed b)
  | aborted {p ws} : Yields p ws .aborted
  | read {k ws o} (s : σ) : Yields (k s) ws o → Yields (.read k) ws o
  | lock {r m k ws o} (s : σ) : Yields (k s) ws o → Yields (.lock r m k) ws o
  | write {u k ws o} : Yields k (ws ++ [u]) o → Yields (.write u k) ws o
  | restart {k ws o} : Yields k [] o → Yields (.restart k) ws o

/-- An answer made by `g`: from a result when the call committed, from an error when it failed. -/
def Outcome.Replies (g : Except ε α → β) : Outcome ω β → Prop
  | .committed _ b => ∃ a, b = g (.ok a)
  | .failed b => ∃ e, b = g (.error e)
  | .aborted => True

namespace Prog

variable {ws : List ω} {o : Outcome ω β}

/-- What is answered was made from a result when the call committed and from an error when it
failed, whatever the call has read. -/
theorem Yields.replies {g : Except ε α → β} {p : Prog σ ω ρ μ ε α}
    (h : (p.answer g).Yields ws o) : o.Replies g := by
  induction p generalizing ws with
  | pure a =>
      cases h with
      | pure => exact ⟨a, rfl⟩
      | aborted => trivial
  | throw e =>
      cases h with
      | throw => exact ⟨e, rfl⟩
      | aborted => trivial
  | read k ih =>
      cases h with
      | read s h => exact ih s h
      | aborted => trivial
  | lock r m k ih =>
      cases h with
      | lock s h => exact ih s h
      | aborted => trivial
  | write u k ih =>
      cases h with
      | write h => exact ih h
      | aborted => trivial
  | restart k ih =>
      cases h with
      | restart h => exact ih h
      | aborted => trivial

/-- Whatever was written is a write of the text: a property that all writes of a program have is
one of all that it commits. -/
theorem Yields.writes {P : ω → Prop} {p : Prog σ ω ρ μ β β} (h : p.Yields ws o) (hp : p.Emits P)
    (hws : ∀ u ∈ ws, P u) : ∀ u ∈ o.writes, P u := by
  induction h with
  | pure => exact hws
  | throw | aborted =>
      intro u hu
      cases hu
  | read s _ ih => exact ih (hp s) hws
  | lock s _ ih => exact ih (hp s) hws
  | @write u k ws o _ ih =>
      refine ih hp.2 fun v hv => ?_
      obtain hv | hv := List.mem_append.mp hv
      · exact hws v hv
      · exact List.mem_singleton.mp hv ▸ hp.1
  | restart _ ih =>
      refine ih hp fun v hv => ?_
      cases hv

/-- A program that only looks commits nothing. It may still commit, with no writes. -/
theorem Yields.no_writes {p : Prog σ ω ρ μ β β} (h : p.Yields [] o)
    (hp : p.Emits fun _ => False) : o.writes = [] := by
  refine List.eq_nil_iff_forall_not_mem.mpr fun u hu => ?_
  refine h.writes hp (fun v hv => ?_) u hu
  cases hv

end Prog

namespace Engine

variable [DecidableEq ρ] {E : Engine σ ω ρ μ γ β} {w : World σ ω ρ μ γ β}
variable {s : System σ ω ρ μ γ β}

omit [DecidableEq ρ] in
/-- What is left of a call can end as the call can. Read backwards: each ending of the rest, with
the writes made so far, is an ending of the whole. -/
theorem yields_acts {x x' : Task σ ω ρ μ γ β} {v : σ} (h : x.Acts E v x') {o : Outcome ω β}
    (ho : x'.prog.Yields x'.writes o) : x.prog.Yields x.writes o := by
  cases h with
  | read hp => exact hp ▸ .read _ ho
  | lock hp => exact hp ▸ .lock _ ho
  | write hp => exact hp ▸ .write ho
  | restart hp => exact hp ▸ .restart ho

omit [DecidableEq ρ] in
/-- A call that ends now ends as one of the ways its program has left. -/
theorem yields_ends {x : Task σ ω ρ μ γ β} {o : Outcome ω β} (h : x.Ends o) :
    x.prog.Yields x.writes o := by
  cases h with
  | commits hp => exact hp ▸ .pure
  | fails hp => exact hp ▸ .throw
  | aborts => exact .aborted

/-- What is left of a call in flight can end as its program can. The invariant speaks of all
endings of the rest, since nothing is known of what the rest will read. -/
theorem Reachable.rest_yields (h : E.Reachable w s) : ∀ t x, s.tasks.get t = some x →
    ∀ o, x.prog.Yields x.writes o → (E.body x.call).Yields [] o := by
  induction h with
  | refl => rintro t x ⟨⟩
  | @tail s s' _ hs htasks =>
      -- A call in flight is an old one that has not moved, or the one that has.
      have hput : ∀ t x, (∀ o, x.prog.Yields x.writes o → (E.body x.call).Yields [] o) →
          ∀ t' y, (s.tasks.put t (some x)).get t' = some y → ∀ o, y.prog.Yields y.writes o →
            (E.body y.call).Yields [] o := by
        intro t x hx t' y hy
        by_cases ht : t' = t
        · subst ht
          rw [Store.get_put_self, Option.some.injEq] at hy
          exact hy ▸ hx
        · rw [Store.get_put_of_ne ht] at hy
          exact htasks t' y hy
      obtain ⟨t, c, -, -, rfl⟩ | ⟨t, x, x', hx, hacts, rfl⟩ | ⟨t, x, o, hx, hends, rfl⟩ :=
        step_of_call hs
      · exact hput t _ fun _ ho => ho
      · refine hput t x' fun o ho => ?_
        have hcall : x'.call = x.call := by
          cases hacts <;> rfl
        exact hcall ▸ htasks t x hx o (yields_acts hacts ho)
      · intro t' y hy
        by_cases ht : t' = t
        · subst ht
          simp [finishTask] at hy
        · exact htasks t' y ((Store.get_put_of_ne ht).symm.trans hy)

/-- A call that ends, ends as its program yields. -/
theorem Reachable.task_yields (h : E.Reachable w s) (t : ℕ) (x : Task σ ω ρ μ γ β)
    (hx : s.tasks.get t = some x) {o : Outcome ω β} (ho : x.Ends o) :
    (E.body x.call).Yields [] o :=
  h.rest_yields t x hx o (yields_ends ho)

/-- **Every call ends as its program yields**: what is shown of all endings of a text holds of
every entry of every history, with no look at the interleaving. -/
theorem Reachable.yields (h : E.Reachable w s) (hw : w.history = []) :
    ∀ e ∈ s.world.history, (E.body e.call).Yields [] e.outcome := by
  induction h with
  | refl =>
      intro e he
      rw [idle, hw] at he
      cases he
  | @tail s s' hrun hs ih =>
      obtain ⟨t, c, -, -, rfl⟩ | ⟨t, x, x', hx, hacts, rfl⟩ | ⟨t, x, o, hx, hends, rfl⟩ :=
        step_of_call hs
      · exact ih
      · exact ih
      · intro e he
        obtain he | he := List.mem_append.mp he
        · exact ih e he
        · cases List.mem_singleton.mp he
          exact task_yields hrun t x hx hends

/-! ## Calls that read once

A call whose program is one read answers, in any company, as it would alone in some committed
state on record: it takes place at that moment, which is one since it began. -/

/-- The program has its answer. -/
def Done (p : Prog σ ω ρ μ β β) : Prop := (∃ b, p = .pure b) ∨ ∃ b, p = .throw b

/-- Where a call that reads once can be, when `n` calls had ended before it began. -/
def AtRead (E : Engine σ ω ρ μ γ β) (n : ℕ) (x : Task σ ω ρ μ γ β) (w : World σ ω ρ μ γ β) : Prop :=
  ∀ k, E.body x.call = .read k → (∀ v, Done (k v)) →
    x.writes = [] ∧ (x.prog = .read k ∨ ∃ v ∈ w.states.drop n, x.prog = k v)

/-- What such a call can end as, after the calls `pre`. -/
def ReadSince (E : Engine σ ω ρ μ γ β) (n : ℕ) (pre : List (Entry σ ω ρ μ γ β))
    (e : Entry σ ω ρ μ γ β) : Prop :=
  ∀ k, E.body e.call = .read k → (∀ v, Done (k v)) →
    e.outcome = .aborted ∨ ∃ v ∈ (World.mk e.before pre).states.drop n, (k v).Yields [] e.outcome

variable {n : ℕ} {x x' : Task σ ω ρ μ γ β}

omit [DecidableEq ρ] in
/-- A program that has its answer takes no more actions; it ends. -/
theorem Done.acts {v : σ} (h : x.Acts E v x') : ¬ Done x.prog := by
  rintro (⟨b, hb⟩ | ⟨b, hb⟩)
  all_goals cases h with
    | read hp | lock hp | write hp | restart hp => cases hb.symm.trans hp

omit [DecidableEq ρ] in
/-- A call that starts has read nothing yet. -/
theorem AtRead.start (c : γ) : AtRead E n ⟨c, E.body c, E.claims c, []⟩ w :=
  fun _ hk _ => ⟨rfl, .inl hk⟩

omit [DecidableEq ρ] in
/-- The current state is one of those since any moment. -/
theorem store_mem_states (hn : n ≤ w.history.length) : w.store ∈ w.states.drop n := by
  rw [World.states, List.drop_append_of_le_length (by rwa [List.length_map])]
  exact List.mem_append_right _ List.mem_cons_self

omit [DecidableEq ρ] in
/-- The one action of such a call is its read, and what it sees is the current state, with no
writes of its own on top. -/
theorem AtRead.acts (h : AtRead E n x w) (hn : n ≤ w.history.length) (hacts : x.Acts E w.store x') :
    AtRead E n x' w := by
  have hcall : x'.call = x.call := by
    cases hacts <;> rfl
  intro k hk hdone
  obtain ⟨hwrites, hprog | ⟨v, -, hprog⟩⟩ := h k (hcall ▸ hk) hdone
  · cases hacts with
    | read hp =>
        cases hprog.symm.trans hp
        refine ⟨hwrites, .inr ⟨w.store, store_mem_states hn, ?_⟩⟩
        rw [hwrites]
        rfl
    | lock hp | write hp | restart hp => cases hprog.symm.trans hp
  · exact absurd (hprog ▸ hdone v) (Done.acts hacts)

omit [DecidableEq ρ] in
/-- It stays there while others end: the state it has read remains on record. -/
theorem AtRead.later {w' : World σ ω ρ μ γ β} (h : AtRead E n x w) (hw : w.states <+: w'.states) :
    AtRead E n x w' := by
  intro k hk hdone
  obtain ⟨hwrites, hprog | ⟨v, hv, hprog⟩⟩ := h k hk hdone
  · exact ⟨hwrites, .inl hprog⟩
  · exact ⟨hwrites, .inr ⟨v, (hw.drop n).subset hv, hprog⟩⟩

omit [DecidableEq ρ] in
/-- **A call that reads once takes place at a moment between its start and its end**: at the read
it has seen a committed state, and no later one has changed its answer. -/
theorem AtRead.ends {o : Outcome ω β} (h : AtRead E n x w) (ho : x.Ends o) :
    ReadSince E n w.history ⟨x.call, x.held, o, w.store⟩ := by
  intro k hk hdone
  obtain ⟨hwrites, hprog | ⟨v, hv, hprog⟩⟩ := h k hk hdone
  · cases ho with
    | commits hp | fails hp => cases hprog.symm.trans hp
    | aborts => exact .inl rfl
  · refine .inr ⟨v, hv, ?_⟩
    have hyields := yields_ends ho
    rwa [hprog, hwrites] at hyields

end Engine

end Txn
