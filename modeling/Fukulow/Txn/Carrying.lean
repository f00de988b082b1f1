/-
Calls and replies that carry more.

The calls of an engine may be given a second text, which answers what the first answers and
something besides (`Engine.carrying`): what a call asked of the outside, in what order. A call
may come with a mark of its own too, which its start is held to: when it began, say. Dropping
both gives exactly the runs of the engine (`move_map`, `reachable_iff`), so nothing said about
the one can be wrong of the other.

`Rules.carrying` adds a promise about what is carried to rules of the engine. A walk through a
program in the engine's own rules is a walk here (`wp_carrying`), so the promise costs one walk
through the calls that make it, and the rest is what those rules already give.
-/
import Fukulow.Txn.Strengthening

set_option autoImplicit false

namespace Txn

variable {σ ω ρ μ γ γ' β β' : Type}

/-! ## Answers of programs with the same actions -/

namespace Prog

variable {ε ε' α α' : Type}

/-- An ending, by what it answers. -/
def answered (g : Except ε α → β') : Except ε α → Except β' β'
  | .ok a => .ok (g (.ok a))
  | .error e => .error (g (.error e))

/-- Answering twice is answering once with both functions, on either way of ending. -/
theorem answer_answer (g : Except ε α → β') (f : Except β' β' → β) (p : Prog σ ω ρ μ ε α) :
    (p.answer g).answer f = p.answer (f ∘ answered g) := by
  induction p with
  | pure a => rfl
  | throw e => rfl
  | read k ih => exact congrArg Prog.read (funext fun s => ih s)
  | lock r m k ih => exact congrArg (Prog.lock r m) (funext fun s => ih s)
  | write u k ih => exact congrArg (Prog.write u) ih
  | restart k ih => exact congrArg Prog.restart ih

theorem answer_self {g : Except β β → β} (hok : ∀ b, g (.ok b) = b) (herror : ∀ b, g (.error b) = b)
    (p : Prog σ ω ρ μ β β) : p.answer g = p := by
  induction p with
  | pure b => exact congrArg Prog.pure (hok b)
  | throw b => exact congrArg Prog.throw (herror b)
  | read k ih => exact congrArg Prog.read (funext fun s => ih s)
  | lock r m k ih => exact congrArg (Prog.lock r m) (funext fun s => ih s)
  | write u k ih => exact congrArg (Prog.write u) ih
  | restart k ih => exact congrArg Prog.restart ih

/-- Two calls answer the same when they begin with the same program, translate its errors to the
same answers, and go on to the same answers. With this a longer text is compared with a shorter one
statement by statement. -/
theorem answer_bind_congr {ε₁ ε₂ α₁ α₂ : Type} {p : Prog σ ω ρ μ ε α} {g₁ : ε → ε₁} {g₂ : ε → ε₂}
    {k₁ : α → Prog σ ω ρ μ ε₁ α₁} {k₂ : α → Prog σ ω ρ μ ε₂ α₂} {f₁ : Except ε₁ α₁ → β}
    {f₂ : Except ε₂ α₂ → β} (herror : ∀ e, f₁ (.error (g₁ e)) = f₂ (.error (g₂ e)))
    (hrest : ∀ a, (k₁ a).answer f₁ = (k₂ a).answer f₂) :
    (p.mapError g₁ >>= k₁).answer f₁ = (p.mapError g₂ >>= k₂).answer f₂ := by
  induction p with
  | pure a => exact hrest a
  | throw e => exact congrArg Prog.throw (herror e)
  | read k ih => exact congrArg Prog.read (funext fun s => ih s)
  | lock r m k ih => exact congrArg (Prog.lock r m) (funext fun s => ih s)
  | write u k ih => exact congrArg (Prog.write u) ih
  | restart k ih => exact congrArg Prog.restart ih

end Prog

/-! ## Dropping what is carried -/

namespace Store

variable {κ : Type} {τ τ' : κ → Type}

/-- Every row, changed. -/
def map (f : ∀ k, τ k → τ' k) (s : Store κ τ) : Store κ τ' where
  get k := (s.get k).map (f k)
  keys := s.keys
  covers k h := s.covers k fun hnone => h (by rw [hnone]; rfl)

theorem get_map (f : ∀ k, τ k → τ' k) (s : Store κ τ) (k : κ) :
    (s.map f).get k = (s.get k).map (f k) := rfl

theorem map_put [DecidableEq κ] (f : ∀ k, τ k → τ' k) (s : Store κ τ) (k : κ)
    (r : Option (τ k)) : (s.put k r).map f = (s.map f).put k (r.map (f k)) := by
  have hget : ∀ k', ((s.put k r).map f).get k' = ((s.map f).put k (r.map (f k))).get k' := by
    intro k'
    by_cases hk : k' = k
    · subst hk
      rw [get_map, get_put_self, get_put_self]
    · rw [get_map, get_put_of_ne hk, get_put_of_ne hk, get_map]
  exact (Store.mk.injEq _ _ _ _ _ _).mpr ⟨funext hget, rfl⟩

end Store

/-- What both ways of ending carry, dropped. -/
def Prog.forget (f : β' → β) (p : Prog σ ω ρ μ β' β') : Prog σ ω ρ μ β β :=
  p.answer fun
    | .ok b => f b
    | .error b => f b

def Outcome.map (f : β' → β) : Outcome ω β' → Outcome ω β
  | .committed ws b => .committed ws (f b)
  | .failed b => .failed (f b)
  | .aborted => .aborted

def Entry.map (f : β' → β) (g : γ' → γ) (e : Entry σ ω ρ μ γ' β') : Entry σ ω ρ μ γ β :=
  ⟨g e.call, e.held, e.outcome.map f, e.before⟩

def World.map (f : β' → β) (g : γ' → γ) (w : World σ ω ρ μ γ' β') : World σ ω ρ μ γ β :=
  ⟨w.store, w.history.map (Entry.map f g)⟩

def Task.map (f : β' → β) (g : γ' → γ) (x : Task σ ω ρ μ γ' β') : Task σ ω ρ μ γ β :=
  ⟨g x.call, x.prog.forget f, x.held, x.writes⟩

def System.map (f : β' → β) (g : γ' → γ) (s : System σ ω ρ μ γ' β') : System σ ω ρ μ γ β :=
  ⟨s.world.map f g, s.tasks.map fun _ => Task.map f g⟩

@[simp] theorem World.map_store (f : β' → β) (g : γ' → γ) (w : World σ ω ρ μ γ' β') :
    (w.map f g).store = w.store := rfl

@[simp] theorem World.map_history (f : β' → β) (g : γ' → γ) (w : World σ ω ρ μ γ' β') :
    (w.map f g).history = w.history.map (Entry.map f g) := rfl

/-- The committed states are the same: what is carried is never written down in them. -/
@[simp] theorem World.states_map (f : β' → β) (g : γ' → γ) (w : World σ ω ρ μ γ' β') :
    (w.map f g).states = w.states := by
  rw [World.states, World.states, World.map_history, List.map_map]
  rfl

/-! ## The engine -/

namespace Engine

variable (E : Engine σ ω ρ μ γ β) (f : β' → β) (g : γ' → γ) (body : γ' → Prog σ ω ρ μ β' β')
variable (may : World σ ω ρ μ γ' β' → γ' → Bool)

/-- The engine whose calls run `body`, and begin when `may` admits their mark. -/
def carrying : Engine σ ω ρ μ γ' β' where
  apply := E.apply
  conflict := E.conflict
  conflict_comm := E.conflict_comm
  body := body
  claims c := E.claims (g c)
  mayStart w c := may w c && E.mayStart (w.map f g) (g c)

variable {E f g body may}

/-- An ending is the same with what is carried dropped before or after it. -/
theorem finish_map (c : γ') (L : List (ρ × μ)) (o : Outcome ω β') (w : World σ ω ρ μ γ' β') :
    ((E.carrying f g body may).finish c L o w).map f g
      = E.finish (g c) L (o.map f) (w.map f g) := by
  have hhistory : (w.history ++ [Entry.mk c L o w.store]).map (Entry.map f g)
      = w.history.map (Entry.map f g) ++ [Entry.mk (g c) L (o.map f) w.store] := List.map_append
  cases o with
  | committed ws b => exact congrArg (World.mk _) hhistory
  | failed b => exact congrArg (World.mk _) hhistory
  | aborted => exact congrArg (World.mk _) hhistory

section Runs

variable [DecidableEq ρ]

/-- Locks are held by calls, whatever these carry, so the same ones are free. -/
theorem free_map (s : System σ ω ρ μ γ' β') (t : ℕ) (r : ρ) (m : μ) :
    E.free (s.map f g) t r m = (E.carrying f g body may).free s t r m := by
  rw [Bool.eq_iff_iff, free_iff, free_iff]
  constructor
  · intro h t' x hne hx m' hm'
    exact h t' (x.map f g) hne (by rw [System.map, Store.get_map, hx]; rfl) m' hm'
  · intro h t' x hne hx m' hm'
    obtain ⟨x', hx', rfl⟩ := Option.map_eq_some_iff.mp hx
    exact h t' x' hne hx' m' hm'

omit [DecidableEq ρ] in
theorem finishTask_map (s : System σ ω ρ μ γ' β') (t : ℕ) (x : Task σ ω ρ μ γ' β')
    (o : Outcome ω β') :
    ((E.carrying f g body may).finishTask s t x o).map f g
      = E.finishTask (s.map f g) t (x.map f g) (o.map f) := by
  have htasks : (s.tasks.put t none).map (fun _ => Task.map f g)
      = (s.tasks.map fun _ => Task.map f g).put t none := Store.map_put _ _ _ _
  exact congrArg₂ System.mk (finish_map x.call x.held o s.world) htasks

omit [DecidableEq ρ] in
theorem put_map (s : System σ ω ρ μ γ' β') (t : ℕ) (x : Task σ ω ρ μ γ' β') :
    System.map f g { s with tasks := s.tasks.put t (some x) }
      = { s.map f g with tasks := (s.map f g).tasks.put t (some (x.map f g)) } :=
  congrArg (System.mk _) (Store.map_put _ _ _ _)

/-- A call takes the same action with what it carries and without: the texts differ only in what
they answer, and a call that has to wait for a lock waits in both. -/
theorem advance_map (s : System σ ω ρ μ γ' β') (t : ℕ) (x : Task σ ω ρ μ γ' β') :
    E.advance (s.map f g) t (x.map f g)
      = ((E.carrying f g body may).advance s t x).map (System.map f g) := by
  obtain ⟨c, p, L, ws⟩ := x
  cases p with
  | pure b => exact congrArg some (finishTask_map s t _ (.committed ws b)).symm
  | throw b => exact congrArg some (finishTask_map s t _ (.failed b)).symm
  | read k =>
      exact congrArg some
        (put_map (f := f) (g := g) s t ⟨c, k (E.view ws s.world.store), L, ws⟩).symm
  | lock r m k =>
      have hfree : E.free (s.map f g) t r m = (E.carrying f g body may).free s t r m :=
        free_map s t r m
      rw [advance, advance]
      change (if E.free (s.map f g) t r m = true then _ else none)
        = (if (E.carrying f g body may).free s t r m = true then _ else none).map _
      rw [hfree]
      by_cases h : (E.carrying f g body may).free s t r m = true
      · rw [if_pos h, if_pos h]
        exact congrArg some
          (put_map (f := f) (g := g) s t ⟨c, k (E.view ws s.world.store), (r, m) :: L, ws⟩).symm
      · rw [if_neg h, if_neg h]
        rfl
  | write u k => exact congrArg some (put_map (f := f) (g := g) s t ⟨c, k, L, ws ++ [u]⟩).symm
  | restart k => exact congrArg some (put_map (f := f) (g := g) s t ⟨c, k, [], []⟩).symm

/-- A move, without the mark. -/
def forgotten (g : γ' → γ) : Move γ' → Move γ
  | .start t c => .start t (g c)
  | .advance t => .advance t
  | .abort t => .abort t

variable (hbody : ∀ c, (body c).forget f = E.body (g c))
include hbody

/-- A call whose mark is admitted begins here when it begins there. -/
theorem start_map {s : System σ ω ρ μ γ' β'} {t : ℕ} {c : γ'} (hmay : may s.world c = true) :
    E.move (s.map f g) (.start t (g c))
      = ((E.carrying f g body may).move s (.start t c)).map (System.map f g) := by
  have hfree : ∀ h : ρ × μ,
      E.free (s.map f g) t h.1 h.2 = (E.carrying f g body may).free s t h.1 h.2 :=
    fun h => free_map s t h.1 h.2
  have hnone : ((s.map f g).tasks.get t).isNone = (s.tasks.get t).isNone := Option.isNone_map
  rw [move, move, hnone]
  simp only [hfree]
  change (if ((s.tasks.get t).isNone && E.mayStart (s.world.map f g) (g c)
      && (E.claims (g c)).all fun h => (E.carrying f g body may).free s t h.1 h.2) = true
      then _ else none)
    = (if ((s.tasks.get t).isNone && (may s.world c && E.mayStart (s.world.map f g) (g c))
      && (E.claims (g c)).all fun h => (E.carrying f g body may).free s t h.1 h.2) = true
      then _ else none).map _
  rw [hmay, Bool.true_and]
  generalize ((s.tasks.get t).isNone && E.mayStart (s.world.map f g) (g c)
    && (E.claims (g c)).all fun h => (E.carrying f g body may).free s t h.1 h.2) = starts
  cases starts with
  | false => rfl
  | true =>
      rw [if_pos rfl, if_pos rfl, ← hbody c]
      exact congrArg some (put_map (f := f) (g := g) s t ⟨c, body c, E.claims (g c), []⟩).symm

/-- **One move**, with what is carried and without. Only the start of a call looks at its mark, so
every other move is possible on both sides or on neither. -/
theorem move_map (s : System σ ω ρ μ γ' β') (m : Move γ')
    (hmay : ∀ t c, m = .start t c → may s.world c = true) :
    E.move (s.map f g) (forgotten g m)
      = ((E.carrying f g body may).move s m).map (System.map f g) := by
  cases m with
  | start t c => exact start_map hbody (hmay t c rfl)
  | advance t =>
      rw [move, forgotten, move]
      change ((s.tasks.get t).map (Task.map f g)).bind _ = _
      cases s.tasks.get t with
      | none => rfl
      | some x => exact advance_map s t x
  | abort t =>
      rw [move, forgotten, move]
      change ((s.tasks.get t).map (Task.map f g)).map _ = _
      cases s.tasks.get t with
      | none => rfl
      | some x => exact congrArg some (finishTask_map s t x .aborted).symm

omit hbody in
/-- A call that begins has an admitted mark; this is all that is known of marks. -/
theorem may_of_start {s s' : System σ ω ρ μ γ' β'} {t : ℕ} {c : γ'}
    (h : (E.carrying f g body may).move s (.start t c) = some s') : may s.world c = true := by
  rw [move] at h
  split at h
  · rename_i hstarts
    simp only [Bool.and_eq_true] at hstarts
    exact ((Bool.and_eq_true _ _).mp hstarts.1.2).1
  · cases h

/-- **The runs are the same**, up to what is carried, where every call can be given a mark at any
time. From left to right each start needs a mark that the world at that moment admits, which is
what `hlift` provides. -/
theorem reachable_iff (hlift : ∀ w c, ∃ c', g c' = c ∧ may w c' = true)
    {w : World σ ω ρ μ γ' β'} {u : System σ ω ρ μ γ β} :
    E.Reachable (w.map f g) u ↔
      ∃ s, (E.carrying f g body may).Reachable w s ∧ s.map f g = u := by
  have hidle : (idle w).map f g = idle (w.map f g) := rfl
  constructor
  · intro h
    induction h with
    | refl => exact ⟨idle w, .refl, hidle⟩
    | tail _ hstep ih =>
        obtain ⟨s, hs, rfl⟩ := ih
        obtain ⟨m, hm⟩ := hstep
        -- The same move, with a mark for the call that begins.
        obtain ⟨m', rfl, hmay⟩ : ∃ m', forgotten g m' = m
            ∧ ∀ t c, m' = .start t c → may s.world c = true := by
          cases m with
          | start t c =>
              obtain ⟨c', rfl, hmay⟩ := hlift s.world c
              exact ⟨.start t c', rfl, by rintro t' c'' ⟨⟩; exact hmay⟩
          | advance t => exact ⟨.advance t, rfl, by rintro t' c' ⟨⟩⟩
          | abort t => exact ⟨.abort t, rfl, by rintro t' c' ⟨⟩⟩
        rw [move_map hbody s m' hmay] at hm
        obtain ⟨s', hs', rfl⟩ := Option.map_eq_some_iff.mp hm
        exact ⟨s', hs.tail ⟨m', hs'⟩, rfl⟩
  · rintro ⟨s, hs, rfl⟩
    induction hs with
    | refl => exact .refl
    | @tail s s' _ hstep ih =>
        obtain ⟨m, hm⟩ := hstep
        refine ih.tail ⟨forgotten g m, ?_⟩
        rw [move_map hbody s m fun t c hc => may_of_start (hc ▸ hm), hm]
        rfl

end Runs

end Engine

/-! ## Rules -/

namespace Rules

variable {E : Engine σ ω ρ μ γ β} {f : β' → β} {g : γ' → γ} {body : γ' → Prog σ ω ρ μ β' β'}
variable {may : World σ ω ρ μ γ' β' → γ' → Bool}

/-- The rules of the engine, and a promise about what is carried. -/
def carrying (R : Rules E) (f : β' → β) (g : γ' → γ) (body : γ' → Prog σ ω ρ μ β' β')
    (may : World σ ω ρ μ γ' β' → γ' → Bool)
    (S : γ' → List (ρ × μ) → Outcome ω β' → World σ ω ρ μ γ β → Prop) :
    Rules (E.carrying f g body may) where
  valid w := R.valid (w.map f g)
  guar c L o w := R.guar (g c) L (o.map f) (w.map f g) ∧ S c L o (w.map f g)
  presumes c := R.presumes (g c)

variable {R : Rules E} {S : γ' → List (ρ × μ) → Outcome ω β' → World σ ω ρ μ γ β → Prop}

/-- A call is taken to hold the same locks at its end, whatever it carries. -/
theorem shown_map (c : γ') (L : List (ρ × μ)) (o : Outcome ω β') :
    R.shown (g c) L (o.map f) = (R.carrying f g body may S).shown c L o := by
  cases o <;> rfl

/-- What comes later here comes later there: a stronger guarantee has been met by each of the
endings. -/
theorem Later.map {L : List (ρ × μ)} {w w' : World σ ω ρ μ γ' β'}
    (h : (R.carrying f g body may S).Later L w w') : R.Later L (w.map f g) (w'.map f g) := by
  refine Relation.ReflTransGen.lift (World.map f g) ?_ _ _ h
  rintro u v ⟨c, K, o, hg, hcompatible, hu, hv, rfl⟩
  rw [← shown_map] at hcompatible
  refine ⟨g c, K, o.map f, hg.1, hcompatible, hu, ?_, Engine.finish_map c K o u⟩
  exact hv

/-- **A walk in the engine's rules is a walk here.** What is carried plays no part in it, so each
spec lemma of a statement is used as it stands. -/
theorem wp_carrying {ε α : Type} {p : Prog σ ω ρ μ ε α}
    {Q : List (ρ × μ) → List ω → α → World σ ω ρ μ γ β → Prop}
    {F : List (ρ × μ) → ε → World σ ω ρ μ γ β → Prop} {L : List (ρ × μ)} {ws : List ω}
    {w : World σ ω ρ μ γ' β'} (h : R.wp Q F p L ws (w.map f g)) :
    (R.carrying f g body may S).wp (fun L ws a w => Q L ws a (w.map f g))
      (fun L e w => F L e (w.map f g)) p L ws w := by
  induction p generalizing L ws w with
  | pure a => exact h
  | throw e => exact h
  | read k ih => exact fun w' hl hv => ih _ (h (w'.map f g) hl.map hv)
  | lock r m k ih => exact fun w' hl hv => ih _ (h (w'.map f g) hl.map hv)
  | write u k ih => exact ih h
  | restart k ih => exact ih h

/-- **Soundness.** Beside sound rules of the engine, the promise has to be met by each call where
it returns and where it fails, from the world whose marks admitted it. An aborted call has nothing
to promise. -/
theorem Sound.carrying (hR : R.Sound) (hbody : ∀ c, (body c).forget f = E.body (g c))
    (habort : ∀ c L w, S c L .aborted w)
    (hpromise : ∀ c w, R.valid (w.map f g) → may w c = true →
      R.wp (fun L ws b w => R.Hence L (S c L (.committed ws b)) w)
        (fun L b w => R.Hence L (S c L (.failed b)) w) (body c) (E.claims (g c)) [] (w.map f g)) :
    (R.carrying f g body may S).Sound where
  keeps c L o w hv hg := by
    change R.valid (((E.carrying f g body may).finish c L o w).map f g)
    rw [Engine.finish_map]
    exact hR.keeps (g c) L (o.map f) (w.map f g) hv hg.1
  aborts c L w hv := ⟨hR.aborts (g c) L (w.map f g) hv, habort c L (w.map f g)⟩
  bodies c w hv hmay := by
    obtain ⟨hmark, hstart⟩ := (Bool.and_eq_true _ _).mp hmay
    have hold := hR.bodies (g c) (w.map f g) hv hstart
    rw [← hbody c, Prog.forget, wp_answer] at hold
    refine wp_mono (wp_carrying (wp_and hold (hpromise c w hv hmark))) ?_ ?_
    · rintro L ws b w ⟨hcommits, hS⟩ v hl hv
      exact ⟨hcommits (v.map f g) hl.map hv, hS (v.map f g) hl.map hv⟩
    · rintro L b w ⟨hfails, hS⟩ v hl hv
      exact ⟨hfails (v.map f g) hl.map hv, hS (v.map f g) hl.map hv⟩

end Rules

end Txn
