/-
Rely-guarantee reasoning for transaction programs that hold their locks to the end.

`Rules` say what a call may do when it ends (`guar`: a call, the locks it holds,
how it ends, the world it ends in) and which worlds are well formed (`valid`).
While a call holds locks `L`, the world changes only by the endings of calls whose
locks are compatible with `L`: that is `Later`, and the facts a call may rely on
are the ones `Later` preserves. `wp` runs a program symbolically: each read and
each granted lock happens at some later world, and what must be shown at the end is
the guarantee. So one walk through a program text, at every interleaving, proves
what the call does to the committed state at its commit, and `Sound.reachable` turns
these walks into one fact about runs: every reachable world comes from the first one
by endings that met their guarantee. What follows from the guarantees is then an
ordinary induction over `Later`.

A fact that is protected by the locks held is stated as `Hence`: it holds now and at
every world these locks let come after.

`presumes` lists locks that a committing call is taken to hold although it may not. The
soundness theorem is then about the runs in which this never matters (`Clear`): it is how
a system with a missing lock is studied in the runs that do not reach the defect.
-/
import Fukulow.Txn.Interleaving

set_option autoImplicit false

namespace Txn

variable {σ ω ρ μ γ β ε ε' α α' : Type}

/-- No lock of one list excludes a lock of the other. -/
def Engine.Compatible (E : Engine σ ω ρ μ γ β) (L L' : List (ρ × μ)) : Prop :=
  ∀ r m m', (r, m) ∈ L → (r, m') ∈ L' → E.conflict m m' = false

/-- What the calls of a system promise: `valid` worlds, and what each call may do
when it ends. -/
structure Rules (E : Engine σ ω ρ μ γ β) where
  valid : World σ ω ρ μ γ β → Prop
  guar : γ → List (ρ × μ) → Outcome ω β → World σ ω ρ μ γ β → Prop
  presumes : γ → List (ρ × μ)

namespace Rules

variable {E : Engine σ ω ρ μ γ β} (R : Rules E)

/-- The locks a call is taken to hold when it ends. -/
def shown (c : γ) (L : List (ρ × μ)) : Outcome ω β → List (ρ × μ)
  | .committed _ _ => R.presumes c ++ L
  | .failed _ | .aborted => L

/-- What a call really holds is among what it is taken to hold, so a lock that is presumed only
ever adds to what the others may rely on. -/
theorem subset_shown (c : γ) (L : List (ρ × μ)) (o : Outcome ω β) : L ⊆ R.shown c L o := by
  cases o <;> simp [shown]

/-- Some call compatible with the locks `L` ends. Both worlds are valid, so that an invariant of
committed states can be used at either end of the step without being carried along. -/
def Rely (L : List (ρ × μ)) (w w' : World σ ω ρ μ γ β) : Prop :=
  ∃ c L' o, R.guar c L' o w ∧ E.Compatible L (R.shown c L' o) ∧ R.valid w ∧ R.valid w'
    ∧ w' = E.finish c L' o w

/-- Any number of compatible calls end. -/
abbrev Later (L : List (ρ × μ)) : World σ ω ρ μ γ β → World σ ω ρ μ γ β → Prop :=
  Relation.ReflTransGen (R.Rely L)

variable {R}

/-- Whoever holds more locks is disturbed by fewer calls. `wp` takes one lock after the other, and
what was shown under fewer of them has to hold under all. -/
theorem Rely.mono {L L' : List (ρ × μ)} {w w' : World σ ω ρ μ γ β} (hL : L ⊆ L')
    (h : R.Rely L' w w') : R.Rely L w w' := by
  obtain ⟨c, K, o, hg, hc, hv, hv', rfl⟩ := h
  exact ⟨c, K, o, hg, fun r m m' hm => hc r m m' (hL hm), hv, hv', rfl⟩

/-- The same for any number of endings: a program that has taken another lock sees a part of what
it could have seen before. -/
theorem Later.mono {L L' : List (ρ × μ)} {w w' : World σ ω ρ μ γ β} (hL : L ⊆ L')
    (h : R.Later L' w w') : R.Later L w w' :=
  Relation.ReflTransGen.mono (fun _ _ => Rely.mono hL) _ _ h

/-- A world that compatible calls lead to is valid, as every single ending keeps it so. The
induction is on the number of endings, of which only the last one matters. -/
theorem Later.valid {L : List (ρ × μ)} {w w' : World σ ω ρ μ γ β} (hv : R.valid w)
    (h : R.Later L w w') : R.valid w' := by
  induction h with
  | refl => exact hv
  -- Validity after the ending is part of what `Rely` says.
  | tail _ hs _ => exact hs.choose_spec.choose_spec.choose_spec.2.2.2.1

/-- **The stability rule.** What every compatible ending preserves still holds later. Most facts
about a system come from this one induction over endings: a fact is shown for one ending, whatever
the call, and then holds along every run. -/
theorem Later.preserves {L : List (ρ × μ)} {P : World σ ω ρ μ γ β → Prop}
    (hstep : ∀ c L' o w, P w → R.guar c L' o w → E.Compatible L (R.shown c L' o) → R.valid w →
      P (E.finish c L' o w))
    {w w' : World σ ω ρ μ γ β} (h : R.Later L w w') (hP : P w) : P w' := by
  induction h with
  | refl => exact hP
  | tail _ hs ih =>
      obtain ⟨c, L', o, hg, hc, hv, -, rfl⟩ := hs
      exact hstep c L' o _ ih hg hc hv

/-- An observation every compatible ending leaves alone reads the same later. A lock on a row is
used in this way: it excludes every ending that would change what is observed. -/
theorem Later.frozen {L : List (ρ × μ)} {τ : Type} (obs : World σ ω ρ μ γ β → τ)
    (hstep : ∀ c L' o w, R.guar c L' o w → E.Compatible L (R.shown c L' o) → R.valid w →
      obs (E.finish c L' o w) = obs w)
    {w w' : World σ ω ρ μ γ β} (h : R.Later L w w') : obs w' = obs w :=
  Later.preserves (P := fun v => obs v = obs w)
    (fun c L' o v hv hg hc hval => (hstep c L' o v hg hc hval).trans hv) h rfl

/-- The committed states seen on the way stay on record, in their order. So a read that is tied to
a state is still tied to it when the call that made it ends. -/
theorem Later.states {L : List (ρ × μ)} {w w' : World σ ω ρ μ γ β} (h : R.Later L w w') :
    w.states <+: w'.states := by
  induction h with
  | refl => exact List.prefix_rfl
  | tail _ hstep ih =>
      obtain ⟨c, L', o, -, -, -, -, rfl⟩ := hstep
      exact ih.trans (E.states_finish c L' o _)

/-- So do the calls that have ended. A later world has every entry of an earlier one at the same
place, which is what an index into the history relies on. -/
theorem Later.history {L : List (ρ × μ)} {w w' : World σ ω ρ μ γ β} (h : R.Later L w w') :
    w.history <+: w'.history := by
  induction h with
  | refl => exact List.prefix_rfl
  | tail _ hstep ih =>
      obtain ⟨c, L', o, -, -, -, -, rfl⟩ := hstep
      exact ih.trans (List.prefix_append _ _)

/-- **Every record was made on the way.** The call of an entry ended within its guarantee, in the
world whose history comes before it, and the run went on from the world that this ending made. An
invariant about pairs of entries is proved by going back to the first of them and following `Later`
from there. -/
theorem Later.at_entry {L : List (ρ × μ)} {w w' : World σ ω ρ μ γ β} (h : R.Later L w w')
    {pre post : List (Entry σ ω ρ μ γ β)} {e : Entry σ ω ρ μ γ β}
    (hw : w'.history = pre ++ e :: post) (hpre : w.history.length ≤ pre.length) :
    ∃ v, R.Later L w v ∧ v.history = pre ∧ v.store = e.before ∧ R.valid v
      ∧ R.guar e.call e.held e.outcome v
      ∧ R.Later L (E.finish e.call e.held e.outcome v) w' := by
  induction h generalizing post with
  | refl =>
      -- Nothing has ended, so no entry comes after those of `w`.
      rw [hw, List.length_append, List.length_cons] at hpre
      omega
  | @tail v w' hl hs ih =>
      have hstep := hs
      obtain ⟨c, K, o, hg, -, hv, -, rfl⟩ := hs
      -- The ending has put one entry at the end of the history.
      simp only [Engine.finish] at hw
      -- The last record is `e`, or it comes after `e`.
      obtain rfl | ⟨post', last, rfl⟩ := post.eq_nil_or_concat
      · obtain ⟨rfl, heq⟩ := List.append_inj' hw rfl
        cases heq
        exact ⟨v, hl, rfl, rfl, hv, hg, .refl⟩
      · rw [List.concat_eq_append, ← List.cons_append, ← List.append_assoc] at hw
        obtain ⟨hold, -⟩ := List.append_inj' hw rfl
        obtain ⟨u, hlu, hpre, hbefore, hvu, hgu, hafter⟩ := ih hold
        exact ⟨u, hlu, hpre, hbefore, hvu, hgu, hafter.tail hstep⟩

/-- `P` holds now and whatever comes after that the locks `L` allow. This is how a program states
what its locks protect: as a fact that needs no further argument at the next statement. -/
def Hence (R : Rules E) (L : List (ρ × μ)) (P : World σ ω ρ μ γ β → Prop)
    (w : World σ ω ρ μ γ β) : Prop :=
  ∀ w', R.Later L w w' → R.valid w' → P w'

/-- What is protected holds at present, for a run of no endings leads from a world to itself. -/
theorem Hence.now {L : List (ρ × μ)} {P : World σ ω ρ μ γ β → Prop} {w : World σ ω ρ μ γ β}
    (h : R.Hence L P w) (hv : R.valid w) : P w :=
  h w .refl hv

/-- A protected fact stays protected while the world moves on and more locks are taken. Both happen
at every statement of a program, so this is the step that carries a fact through `wp`. -/
theorem Hence.later {L L' : List (ρ × μ)} {P : World σ ω ρ μ γ β → Prop}
    {w w' : World σ ω ρ μ γ β} (h : R.Hence L P w) (hL : L ⊆ L') (hl : R.Later L w w') :
    R.Hence L' P w' :=
  fun w'' hl' hv => h w'' (hl.trans (hl'.mono hL)) hv

/-- A protected fact may be weakened, with what is known of every valid world. So the lock is used
once, and what is read off the fact needs no lock of its own. -/
theorem Hence.imp {L : List (ρ × μ)} {P P' : World σ ω ρ μ γ β → Prop} {w : World σ ω ρ μ γ β}
    (h : R.Hence L P w) (himp : ∀ w', R.valid w' → P w' → P' w') : R.Hence L P' w :=
  fun w' hl hv => himp w' hv (h w' hl hv)

/-! ## Symbolic execution -/

variable (R)

/-- **The weakest precondition of a program** that holds `L` and has written `ws`: the
world may move on (compatibly with `L`) before every read and every granted lock. `Q`
is what a returned value must satisfy, `F` what an error must satisfy. -/
def wp (Q : List (ρ × μ) → List ω → α → World σ ω ρ μ γ β → Prop)
    (F : List (ρ × μ) → ε → World σ ω ρ μ γ β → Prop) :
    Prog σ ω ρ μ ε α → List (ρ × μ) → List ω → World σ ω ρ μ γ β → Prop
  | .pure a, L, ws, w => Q L ws a w
  | .throw e, L, _, w => F L e w
  | .read k, L, ws, w =>
      ∀ w', R.Later L w w' → R.valid w' → wp Q F (k (E.view ws w'.store)) L ws w'
  | .lock r m k, L, ws, w =>
      ∀ w', R.Later L w w' → R.valid w' →
        wp Q F (k (E.view ws w'.store)) ((r, m) :: L) ws w'
  | .write u k, L, ws, w => wp Q F k L (ws ++ [u]) w
  | .restart k, _, _, w => wp Q F k [] [] w

variable {R}
variable {Q Q' : List (ρ × μ) → List ω → α → World σ ω ρ μ γ β → Prop}
variable {F F' : List (ρ × μ) → ε → World σ ω ρ μ γ β → Prop}
variable {L : List (ρ × μ)} {ws : List ω} {w : World σ ω ρ μ γ β}

/-- A program that returns has to end where `Q` allows it. The world does not move here: whoever
needs the fact at the commit, which comes later, has to put that into `Q`. -/
theorem wp_pure {a : α} : R.wp Q F (pure a) L ws w ↔ Q L ws a w := Iff.rfl

/-- The rule of consequence. The locks and the writes are part of what the postcondition speaks
about, so it may be weakened for each way of ending separately. -/
theorem wp_mono {p : Prog σ ω ρ μ ε α} (h : R.wp Q F p L ws w)
    (hQ : ∀ L ws a w, Q L ws a w → Q' L ws a w) (hF : ∀ L e w, F L e w → F' L e w) :
    R.wp Q' F' p L ws w := by
  induction p generalizing L ws w with
  | pure a => exact hQ _ _ _ _ h
  | throw e => exact hF _ _ _ h
  | read k ih => exact fun w' hl hv => ih _ (h w' hl hv)
  | lock r m k ih => exact fun w' hl hv => ih _ (h w' hl hv)
  | write u k ih => exact ih h
  | restart k ih => exact ih h

/-- The sequencing rule: the first program must end where the rest can go on, with the locks it
took and the writes it made. It is an equivalence, so that a goal about a whole program turns into
one about its first statement by rewriting. -/
theorem wp_bind {Q : List (ρ × μ) → List ω → α' → World σ ω ρ μ γ β → Prop}
    {p : Prog σ ω ρ μ ε α} {f : α → Prog σ ω ρ μ ε α'} :
    R.wp Q F (p >>= f) L ws w ↔ R.wp (fun L ws a w => R.wp Q F (f a) L ws w) F p L ws w := by
  induction p generalizing L ws w with
  | pure a => exact Iff.rfl
  | throw e => exact Iff.rfl
  | read k ih => exact forall_congr' fun w' => forall_congr' fun _ => forall_congr' fun _ => ih _
  | lock r m k ih => exact forall_congr' fun w' => forall_congr' fun _ => forall_congr' fun _ => ih _
  | write u k ih => exact ih
  | restart k ih => exact ih

/-- Renaming an error changes what has to be shown of it and nothing else. Operations use it to
turn an error of the database into one of their own. -/
theorem wp_mapError {F : List (ρ × μ) → ε' → World σ ω ρ μ γ β → Prop} {g : ε → ε'}
    {p : Prog σ ω ρ μ ε α} :
    R.wp Q F (p.mapError g) L ws w ↔ R.wp Q (fun L e w => F L (g e) w) p L ws w := by
  induction p generalizing L ws w with
  | pure a => exact Iff.rfl
  | throw e => exact Iff.rfl
  | read k ih => exact forall_congr' fun w' => forall_congr' fun _ => forall_congr' fun _ => ih _
  | lock r m k ih => exact forall_congr' fun w' => forall_congr' fun _ => forall_congr' fun _ => ih _
  | write u k ih => exact ih
  | restart k ih => exact ih

/-- A call answers with its result or with its error, and both are replies. What is shown of the
operation becomes what is shown of the call. -/
theorem wp_answer {Q : List (ρ × μ) → List ω → α' → World σ ω ρ μ γ β → Prop}
    {F : List (ρ × μ) → α' → World σ ω ρ μ γ β → Prop} {g : Except ε α → α'}
    {p : Prog σ ω ρ μ ε α} :
    R.wp Q F (p.answer g) L ws w ↔
      R.wp (fun L ws a w => Q L ws (g (.ok a)) w) (fun L e w => F L (g (.error e)) w) p L ws w := by
  induction p generalizing L ws w with
  | pure a => exact Iff.rfl
  | throw e => exact Iff.rfl
  | read k ih => exact forall_congr' fun w' => forall_congr' fun _ => forall_congr' fun _ => ih _
  | lock r m k ih => exact forall_congr' fun w' => forall_congr' fun _ => forall_congr' fun _ => ih _
  | write u k ih => exact ih
  | restart k ih => exact ih

/-- The loop rule: an invariant of the elements done so far, which may speak of the locks and the
writes as well. Between two rounds the world may have moved, so the invariant has to be one that
its own locks protect. -/
theorem wp_forM {F : List (ρ × μ) → ε → World σ ω ρ μ γ β → Prop} {τ : Type} {xs : List τ}
    {f : τ → Prog σ ω ρ μ ε PUnit}
    (I : List τ → List (ρ × μ) → List ω → World σ ω ρ μ γ β → Prop)
    (hinit : I [] L ws w)
    (hstep : ∀ done x rest, xs = done ++ x :: rest → ∀ L ws w, I done L ws w →
      R.wp (fun L ws _ w => I (done ++ [x]) L ws w) F (f x) L ws w) :
    R.wp (fun L ws _ w => I xs L ws w) F (xs.forM f) L ws w := by
  -- The loop has done `done` and still has to do `rest`; induction on `rest`.
  suffices h : ∀ rest done, xs = done ++ rest → ∀ L ws w, I done L ws w →
      R.wp (fun L ws _ w => I xs L ws w) F (rest.forM f) L ws w from h xs [] rfl L ws w hinit
  intro rest
  induction rest with
  | nil =>
      intro done hxs L ws w hI
      have hdone : xs = done := by simpa using hxs
      exact hdone ▸ hI
  | cons x rest ih =>
      intro done hxs L ws w hI
      change R.wp _ F (f x >>= fun _ => rest.forM f) L ws w
      rw [wp_bind]
      refine wp_mono (hstep done x rest hxs L ws w hI) ?_ (fun _ _ _ h => h)
      intro L ws _ w hI'
      exact ih (done ++ [x]) (by simp [hxs]) L ws w hI'

/-- A program whose ends are stable may start at any later world. The cases that read or lock need
no induction hypothesis, for what they require is required at every later world already; only a
write goes on where it is. -/
theorem wp_later {p : Prog σ ω ρ μ ε α}
    (hQ : ∀ L ws a w w', Q L ws a w → R.Later L w w' → R.valid w' → Q L ws a w')
    (hF : ∀ L e w w', F L e w → R.Later L w w' → R.valid w' → F L e w')
    {w' : World σ ω ρ μ γ β} (h : R.wp Q F p L ws w) (hl : R.Later L w w') (hv : R.valid w') :
    R.wp Q F p L ws w' := by
  induction p generalizing L ws w w' with
  | pure a => exact hQ _ _ _ _ _ h hl hv
  | throw e => exact hF _ _ _ _ h hl hv
  -- What was required at every later world is required here as well.
  | read k => exact fun v hl' hv' => h v (hl.trans hl') hv'
  | lock r m k => exact fun v hl' hv' => h v (hl.trans hl') hv'
  | write u k ih => exact ih h hl hv
  -- A restart gives its locks up, and without locks more could have come before.
  | restart k ih => exact ih h (hl.mono (List.nil_subset L)) hv

/-! ## Soundness -/

variable (R)

/-- What a call must show when it returns: its guarantee, at whatever later world the commit
happens. Between its last statement and its commit others may end, and only its locks say what they
cannot have changed. -/
def Commits (c : γ) (L : List (ρ × μ)) (ws : List ω) (b : β) (w : World σ ω ρ μ γ β) : Prop :=
  ∀ w', R.Later L w w' → R.valid w' → R.guar c L (.committed ws b) w'

/-- What a call must show when it fails: the same for an ending that writes nothing. -/
def Fails (c : γ) (L : List (ρ × μ)) (b : β) (w : World σ ω ρ μ γ β) : Prop :=
  ∀ w', R.Later L w w' → R.valid w' → R.guar c L (.failed b) w'

/-- The proof obligations of a system: guarantees keep worlds valid, an abort is always allowed,
and every admitted call meets its guarantee. The last one is a walk through each program, alone;
nothing in it speaks of any other call. -/
structure Sound : Prop where
  keeps : ∀ c L o w, R.valid w → R.guar c L o w → R.valid (E.finish c L o w)
  aborts : ∀ c L w, R.valid w → R.guar c L .aborted w
  bodies : ∀ c w, R.valid w → E.mayStart w c = true →
    R.wp (R.Commits c) (R.Fails c) (E.body c) (E.claims c) [] w

/-- The invariant behind soundness: the world is valid, every call in flight can still meet its
guarantee, and the locks of two calls are compatible. The third part is what lets an ending of one
call be a step that each other call relies on. -/
structure Safe (s : System σ ω ρ μ γ β) : Prop where
  valid : R.valid s.world
  tasks : ∀ t x, s.tasks.get t = some x →
    R.wp (R.Commits x.call) (R.Fails x.call) x.prog x.held x.writes s.world
  locks : ∀ t t' x x', t ≠ t' → s.tasks.get t = some x → s.tasks.get t' = some x' →
    E.Compatible x.held x'.held

variable {R}

/-- Where nothing is in flight there is nothing to show but that the world is valid. -/
theorem Safe.idle {w : World σ ω ρ μ γ β} (hv : R.valid w) : R.Safe (Engine.idle w) where
  valid := hv
  tasks _ _ h := by simp [Engine.idle] at h
  locks _ _ _ _ _ h := by simp [Engine.idle] at h

/-- Replacing one call's task keeps the system safe, given what the new task needs. The world has
not moved, so the other calls need nothing; two tasks are compatible in either order, which is why
there are cases for both of them. -/
theorem Safe.put {s : System σ ω ρ μ γ β} (hs : R.Safe s) {t : ℕ} {x : Task σ ω ρ μ γ β}
    (hx : R.wp (R.Commits x.call) (R.Fails x.call) x.prog x.held x.writes s.world)
    (hL : ∀ t' x', t' ≠ t → s.tasks.get t' = some x' → E.Compatible x.held x'.held) :
    R.Safe { s with tasks := s.tasks.put t (some x) } where
  valid := hs.valid
  tasks := by
    intro t' y hy
    by_cases ht : t' = t
    · subst ht
      rw [Store.get_put_self, Option.some.injEq] at hy
      exact hy ▸ hx
    · rw [Store.get_put_of_ne ht] at hy
      exact hs.tasks t' y hy
  locks := by
    intro t₁ t₂ x₁ x₂ hne h₁ h₂
    by_cases ht₁ : t₁ = t
    · subst ht₁
      rw [Store.get_put_self, Option.some.injEq] at h₁
      rw [Store.get_put_of_ne (Ne.symm hne)] at h₂
      exact h₁ ▸ hL t₂ x₂ (Ne.symm hne) h₂
    · rw [Store.get_put_of_ne ht₁] at h₁
      by_cases ht₂ : t₂ = t
      · -- The same conflict, read from the other side.
        subst ht₂
        rw [Store.get_put_self, Option.some.injEq] at h₂
        intro r m m' hm hm'
        rw [E.conflict_comm]
        exact hL t₁ x₁ ht₁ h₁ r m' m (h₂ ▸ hm') hm
      · rw [Store.get_put_of_ne ht₂] at h₂
        exact hs.locks t₁ t₂ x₁ x₂ hne h₁ h₂

/-- A call that ends within its guarantee keeps the system safe, and its ending is a step the
others rely on. This is where compatible locks pay: for a call still in flight the ending is a
`Rely` under its own locks, so what it could show before it can show afterwards. -/
theorem Safe.finish (hR : R.Sound) {s : System σ ω ρ μ γ β} (hs : R.Safe s) {t : ℕ}
    {x : Task σ ω ρ μ γ β} (hx : s.tasks.get t = some x) {o : Outcome ω β}
    (hg : R.guar x.call x.held o s.world)
    (hclear : ∀ t' y, t' ≠ t → s.tasks.get t' = some y →
      E.Compatible y.held (R.shown x.call x.held o)) :
    R.Safe (E.finishTask s t x o) ∧ R.Rely [] s.world (E.finishTask s t x o).world := by
  have hv : R.valid (E.finish x.call x.held o s.world) := hR.keeps _ _ _ _ hs.valid hg
  refine ⟨⟨hv, ?_, ?_⟩, x.call, x.held, o, hg, ?_, hs.valid, hv, rfl⟩
  · intro t' y hy
    by_cases ht : t' = t
    · subst ht
      simp [Engine.finishTask] at hy
    · simp only [Engine.finishTask, Store.get_put_of_ne ht] at hy
      have hrely : R.Rely y.held s.world (E.finish x.call x.held o s.world) :=
        ⟨x.call, x.held, o, hg, hclear t' y ht hy, hs.valid, hv, rfl⟩
      -- Both ends are stable, as each is asked for at every later world.
      refine wp_later ?_ ?_ (hs.tasks t' y hy) (.single hrely) hv
      · exact fun L ws b w w' h hl _ w'' hl' hv'' => h w'' (hl.trans hl') hv''
      · exact fun L b w w' h hl _ w'' hl' hv'' => h w'' (hl.trans hl') hv''
  · -- The locks of the call that ended are gone; the others are as they were.
    intro t₁ t₂ x₁ x₂ hne h₁ h₂
    by_cases ht₁ : t₁ = t
    · subst ht₁; simp [Engine.finishTask] at h₁
    · by_cases ht₂ : t₂ = t
      · subst ht₂; simp [Engine.finishTask] at h₂
      · simp only [Engine.finishTask, Store.get_put_of_ne ht₁] at h₁
        simp only [Engine.finishTask, Store.get_put_of_ne ht₂] at h₂
        exact hs.locks t₁ t₂ x₁ x₂ hne h₁ h₂
  · exact fun _ _ _ h => absurd h List.not_mem_nil

variable (R)

/-- No call is about to commit whose presumed locks another call's locks exclude. It is a condition
on the system before a step, and speaks of commits only. -/
def Clear (s : System σ ω ρ μ γ β) : Prop :=
  ∀ t x b, s.tasks.get t = some x → x.prog = .pure b →
    ∀ t' y, t' ≠ t → s.tasks.get t' = some y → E.Compatible y.held (R.presumes x.call)

variable {R}

/-- Where no lock is presumed every system is clear, and soundness is about all runs. -/
theorem clear_of_presumes (h : ∀ c, R.presumes c = []) (s : System σ ω ρ μ γ β) : R.Clear s := by
  intro t x b _ _ t' y _ _ r m m' _ hm'
  rw [h] at hm'
  exact absurd hm' List.not_mem_nil

section Steps

variable [DecidableEq ρ]

/-- **One step.** It keeps the system safe, and the world stays or moves by an ending within its
guarantee. A start needs the walk through the program of the call; an action needs what that walk
has left to show, one case per form of the program; an abort is allowed at any time. -/
theorem Safe.step (hR : R.Sound) {s s' : System σ ω ρ μ γ β} (hs : R.Safe s)
    (hclear : R.Clear s) (h : E.Step s s') : R.Safe s' ∧ R.Later [] s.world s'.world := by
  obtain ⟨t, c, -, hadm, hfree, rfl⟩ | ⟨t, x, hx, hadv⟩ | ⟨t, x, hx, rfl⟩ := Engine.step_cases h
  · -- A call starts with the locks it claims, which nobody else's exclude.
    refine ⟨hs.put (hR.bodies c _ hs.valid hadm) ?_, .refl⟩
    intro t' x' hne hx' r m m' hm hm'
    exact Engine.free_iff.mp (hfree (r, m) hm) t' x' hne hx' m' hm'
  · -- The call takes one action: one case per form of its program.
    have hwp := hs.tasks t x hx
    have hlocks : ∀ t' x', t' ≠ t → s.tasks.get t' = some x' → E.Compatible x.held x'.held :=
      fun t' x' hne hx' => hs.locks t t' x x' (Ne.symm hne) hx hx'
    unfold Engine.advance at hadv
    split at hadv
    case h_1 b hp =>
      cases hadv
      rw [hp] at hwp
      -- Where a lock is only presumed, that the step is clear takes its place.
      have hshown : ∀ t' y, t' ≠ t → s.tasks.get t' = some y →
          E.Compatible y.held (R.shown x.call x.held (.committed x.writes b)) := by
        intro t' y hne hy r m m' hm hm'
        obtain hm' | hm' := List.mem_append.mp hm'
        · exact hclear t x b hx hp t' y hne hy r m m' hm hm'
        · exact hs.locks t' t y x hne hy hx r m m' hm hm'
      obtain ⟨hsafe, hrely⟩ := hs.finish hR hx (hwp s.world .refl hs.valid) hshown
      exact ⟨hsafe, .single hrely⟩
    case h_2 e hp =>
      cases hadv
      rw [hp] at hwp
      obtain ⟨hsafe, hrely⟩ := hs.finish hR hx (hwp s.world .refl hs.valid)
        fun t' y hne hy => hs.locks t' t y x hne hy hx
      exact ⟨hsafe, .single hrely⟩
    case h_3 k hp =>
      cases hadv
      rw [hp] at hwp
      exact ⟨hs.put (hwp s.world .refl hs.valid) hlocks, .refl⟩
    case h_4 r m k hp =>
      split at hadv
      · rename_i hfree
        cases hadv
        rw [hp] at hwp
        refine ⟨hs.put (hwp s.world .refl hs.valid) ?_, .refl⟩
        intro t' x' hne hx' r' m₁ m₂ hm₁ hm₂
        -- Only the lock that has just been granted is new.
        obtain heq | hm₁ := List.mem_cons.mp hm₁
        · cases heq
          exact Engine.free_iff.mp hfree t' x' hne hx' m₂ hm₂
        · exact hlocks t' x' hne hx' r' m₁ m₂ hm₁ hm₂
      · cases hadv
    case h_5 u k hp =>
      cases hadv
      rw [hp] at hwp
      exact ⟨hs.put hwp hlocks, .refl⟩
    case h_6 k hp =>
      cases hadv
      rw [hp] at hwp
      exact ⟨hs.put hwp fun _ _ _ _ _ _ _ h => absurd h List.not_mem_nil, .refl⟩
  · -- A connection that breaks ends the call where it is.
    obtain ⟨hsafe, hrely⟩ := hs.finish hR hx (hR.aborts x.call x.held s.world hs.valid)
      fun t' y hne hy => hs.locks t' t y x hne hy hx
    exact ⟨hsafe, .single hrely⟩

/-- Any number of clear steps, by induction on the run: each step starts where the system is safe,
and the ways that the world moved are put one after the other. -/
theorem Safe.steps (hR : R.Sound) {s s' : System σ ω ρ μ γ β} (hs : R.Safe s)
    (h : Relation.ReflTransGen (fun s s' => R.Clear s ∧ E.Step s s') s s') :
    R.Safe s' ∧ R.Later [] s.world s'.world := by
  induction h with
  | refl => exact ⟨hs, .refl⟩
  | tail _ hstep ih =>
      obtain ⟨hsafe, hl⟩ := ih.1.step hR hstep.1 hstep.2
      exact ⟨hsafe, ih.2.trans hl⟩

/-- **Soundness.** From a valid world every interleaving whose steps are clear stays safe, and the
world has moved only by endings that met their guarantee. So a property of all runs is one of
`Later` without locks, and `Later.preserves` asks for it one ending at a time. -/
theorem Sound.reachable (hR : R.Sound) {w : World σ ω ρ μ γ β} (hv : R.valid w)
    {s : System σ ω ρ μ γ β} (h : E.ReachableIn R.Clear w s) :
    R.Safe s ∧ R.Later [] w s.world :=
  (Safe.idle hv).steps hR h

end Steps

end Rules

end Txn
