/-
A server: clients that are served at once, on one transaction system.

A `Service` says which client program answers a request, which call of the engine carries
out a call of a client, and which calls others make in the background. A `Server` is the
transaction system with the `Visit`s in progress, each with its request, what it has heard of
its calls, the rest of its program, and the call it waits for; the visits that are over are
kept with their answers. A visit need not hear how a call ended: when a connection breaks at
the commit, nobody can tell. A visit that is given up is one that takes no more steps: the call
it waits for may still end either way.

`Service.Reachable.kept` is the rule for invariants: what every program does on its own
(`Client.Does`) holds of every visit in every run, and every finished call is a background call
or one of a visit whose earlier calls finished before it, and after the visit began. A call
that reads once has read a state that was committed after that (`Follows`).
-/
import Fukulow.Txn.Client
import Fukulow.Txn.Endings

set_option autoImplicit false

namespace Txn

/-- What the caller was told: nothing, when the call was aborted under it. -/
def Outcome.reply {ω β : Type} : Outcome ω β → Option β
  | committed _ b | failed b => some b
  | aborted => none

/-! ## The steps of a call, by its number -/

namespace Engine

variable {σ ω ρ μ γ β : Type} [DecidableEq ρ] {E : Engine σ ω ρ μ γ β}
variable {s s' : System σ ω ρ μ γ β}

/-- A call can only start under a number that is free, and nothing else changes. -/
theorem move_start {t : ℕ} {c : γ} (h : E.move s (.start t c) = some s') :
    s.tasks.get t = none
      ∧ s' = { s with tasks := s.tasks.put t (some ⟨c, E.body c, E.claims c, []⟩) } := by
  rw [move] at h
  split at h
  · rename_i hc
    simp only [Bool.and_eq_true, Option.isNone_iff_eq_none] at hc
    exact ⟨hc.1.1, (Option.some.inj h).symm⟩
  · cases h

/-- A call that moves takes an action or ends. The number of the call stays known here, unlike in
`step_cases`: a visit waits for one call, and has to know when it is that one. -/
theorem advance_cases {t : ℕ} {x : Task σ ω ρ μ γ β} (h : E.advance s t x = some s') :
    (∃ x', x.Acts E s.world.store x' ∧ s' = { s with tasks := s.tasks.put t (some x') })
      ∨ ∃ o, x.Ends o ∧ s' = E.finishTask s t x o := by
  unfold advance at h
  cases hp : x.prog with
  | pure b =>
      rw [hp] at h
      exact .inr ⟨_, .commits hp, (Option.some.inj h).symm⟩
  | throw b =>
      rw [hp] at h
      exact .inr ⟨_, .fails hp, (Option.some.inj h).symm⟩
  | read k =>
      rw [hp] at h
      exact .inl ⟨_, .read hp, (Option.some.inj h).symm⟩
  | lock r m k =>
      rw [hp] at h
      by_cases hfree : E.free s t r m = true
      · simp only [hfree, if_true] at h
        exact .inl ⟨_, .lock hp, (Option.some.inj h).symm⟩
      · simp only [hfree] at h
        cases h
  | write u k =>
      rw [hp] at h
      exact .inl ⟨_, .write hp, (Option.some.inj h).symm⟩
  | restart k =>
      rw [hp] at h
      exact .inl ⟨_, .restart hp, (Option.some.inj h).symm⟩

omit [DecidableEq ρ] in
/-- An action is part of the same call: what a visit waits for does not turn into something else.
-/
theorem Acts.call_eq {x x' : Task σ ω ρ μ γ β} {s : σ} (h : x.Acts E s x') : x'.call = x.call := by
  cases h <;> rfl

/-- A move other than a start: one call takes an action, or ends. An abort is an ending like any
other, since the caller hears of neither. -/
theorem move_cases {t : ℕ} {m : Move γ} (hm : m = .advance t ∨ m = .abort t)
    (h : E.move s m = some s') :
    ∃ x, s.tasks.get t = some x
      ∧ ((∃ x', x.Acts E s.world.store x' ∧ s' = { s with tasks := s.tasks.put t (some x') })
        ∨ ∃ o, x.Ends o ∧ s' = E.finishTask s t x o) := by
  obtain rfl | rfl := hm
  · obtain ⟨x, hx, hadv⟩ := Option.bind_eq_some_iff.mp h
    exact ⟨x, hx, advance_cases hadv⟩
  · obtain ⟨x, hx, rfl⟩ := Option.map_eq_some_iff.mp h
    exact ⟨x, hx, .inr ⟨.aborted, .aborts, rfl⟩⟩

end Engine

/-! ## The server -/

/-- What a visit hears of a call that ended: its reply, or nothing. -/
structure Heard (σ ω ρ μ γ β : Type) where
  entry : Entry σ ω ρ μ γ β
  reply : Option β
  fits : reply = none ∨ reply = entry.outcome.reply

/-- A request being served, which came in when `since` calls had ended. -/
structure Visit (σ ω ρ μ γ β κ ι ε α : Type) where
  request : ι
  since : ℕ
  past : List (Heard σ ω ρ μ γ β)
  rest : Client κ β ε α
  waits : Option ℕ

/-- A request that was served. -/
structure Answered (σ ω ρ μ γ β ι ε α : Type) where
  request : ι
  since : ℕ
  past : List (Heard σ ω ρ μ γ β)
  answer : Except ε α

structure Server (σ ω ρ μ γ β κ ι ε α : Type) where
  system : System σ ω ρ μ γ β
  visits : Store ℕ fun _ => Visit σ ω ρ μ γ β κ ι ε α
  answered : List (Answered σ ω ρ μ γ β ι ε α)

/-- How requests are served, and what else goes on. -/
structure Service (σ ω ρ μ γ β κ ι ε α : Type) where
  engine : Engine σ ω ρ μ γ β
  name : γ → κ
  serve : ι → Client κ β ε α
  background : γ → Prop

namespace Service

variable {σ ω ρ μ γ β κ ι ε α : Type} [DecidableEq ρ] (S : Service σ ω ρ μ γ β κ ι ε α)

/-- Nothing is in flight, and nobody has been served. -/
def opened (w : World σ ω ρ μ γ β) : Server σ ω ρ μ γ β κ ι ε α :=
  ⟨Engine.idle w, Store.empty, []⟩

inductive Step : Server σ ω ρ μ γ β κ ι ε α → Server σ ω ρ μ γ β κ ι ε α → Prop where
  /-- A request comes in. -/
  | arrive {s n} (i : ι) : s.visits.get n = none →
      Step s { s with
        visits := s.visits.put n (some ⟨i, s.system.world.history.length, [], S.serve i, none⟩) }
  /-- A visit makes its next call. -/
  | submit {s d n x c k t r} : s.visits.get n = some x → x.waits = none → x.rest = .call c k →
      S.name r = c → S.engine.move s.system (.start t r) = some d →
      Step s { s with system := d, visits := s.visits.put n (some { x with waits := some t }) }
  /-- Somebody else makes a call. -/
  | background {s d t r} : S.background r → S.engine.move s.system (.start t r) = some d →
      Step s { s with system := d }
  /-- A call in flight goes on. -/
  | work {s d t m} : m = .advance t ∨ m = .abort t → S.engine.move s.system m = some d →
      d.tasks.get t ≠ none → Step s { s with system := d }
  /-- A call ends, and the visit that waits for it hears of it. -/
  | reply {s d t m n x c k} (e : Heard σ ω ρ μ γ β) : m = .advance t ∨ m = .abort t →
      S.engine.move s.system m = some d → d.world.history = s.system.world.history ++ [e.entry] →
      s.visits.get n = some x → x.waits = some t → x.rest = .call c k →
      Step s { s with
        system := d
        visits := s.visits.put n
          (some { x with past := x.past ++ [e], rest := k e.reply, waits := none }) }
  /-- A call ends that no visit waits for. -/
  | passed {s d t m} : m = .advance t ∨ m = .abort t → S.engine.move s.system m = some d →
      d.tasks.get t = none → (∀ n x, s.visits.get n = some x → x.waits ≠ some t) →
      Step s { s with system := d }
  /-- A visit returns its value. -/
  | answer {s n x a} : s.visits.get n = some x → x.rest = .pure a →
      Step s { s with
        visits := s.visits.put n none
        answered := s.answered ++ [⟨x.request, x.since, x.past, .ok a⟩] }
  /-- A visit fails. -/
  | fail {s n x e} : s.visits.get n = some x → x.rest = .throw e →
      Step s { s with
        visits := s.visits.put n none
        answered := s.answered ++ [⟨x.request, x.since, x.past, .error e⟩] }

/-- What any interleaving of visits and background calls leads to. -/
def Reachable (w : World σ ω ρ μ γ β) (s : Server σ ω ρ μ γ β κ ι ε α) : Prop :=
  Relation.ReflTransGen S.Step (opened w) s

variable {S} {w : World σ ω ρ μ γ β} {s s' : Server σ ω ρ μ γ β κ ι ε α}

/-- **A server is a run of its transaction system**: whatever holds in every interleaving of calls
holds under it. Each step of the server moves the system at most once, and by a move that it has.
-/
theorem Reachable.system (h : S.Reachable w s) : S.engine.Reachable w s.system := by
  induction h with
  | refl => exact .refl
  | tail _ hs ih =>
      cases hs with
      | arrive => exact ih
      | submit _ _ _ _ hmove => exact ih.tail ⟨_, hmove⟩
      | background _ hmove => exact ih.tail ⟨_, hmove⟩
      | work _ hmove => exact ih.tail ⟨_, hmove⟩
      | reply _ _ hmove => exact ih.tail ⟨_, hmove⟩
      | passed _ hmove => exact ih.tail ⟨_, hmove⟩
      | answer => exact ih
      | fail => exact ih

/-- What the visit of some request, which came in when `n` calls had ended, has heard, so far or
in all. -/
def Record (s : Server σ ω ρ μ γ β κ ι ε α) (i : ι) (n : ℕ) (past : List (Heard σ ω ρ μ γ β)) :
    Prop :=
  (∃ m x, s.visits.get m = some x ∧ x.request = i ∧ x.since = n ∧ x.past = past)
    ∨ ∃ a ∈ s.answered, a.request = i ∧ a.since = n ∧ a.past = past

/-- The calls `past` ended in this order, after `n` others had, and those that read once have
read since. -/
structure Follows (S : Service σ ω ρ μ γ β κ ι ε α) (n : ℕ) (history : List (Entry σ ω ρ μ γ β))
    (past : List (Heard σ ω ρ μ γ β)) : Prop where
  since : n ≤ history.length
  order : (past.map Heard.entry).Sublist (history.drop n)
  reads : ∀ e ∈ past, ∃ pre post, history = pre ++ e.entry :: post ∧ n ≤ pre.length
    ∧ S.engine.ReadSince n pre e.entry

/-- A finished call that belongs to a visit, which made it after it had heard `q`. -/
structure Owned (S : Service σ ω ρ μ γ β κ ι ε α) (s : Server σ ω ρ μ γ β κ ι ε α)
    (pre : List (Entry σ ω ρ μ γ β)) (e : Entry σ ω ρ μ γ β) (i : ι) (n : ℕ)
    (q : List (Heard σ ω ρ μ γ β)) : Prop where
  record : ∃ past e', e'.entry = e ∧ Record s i n past ∧ q ++ [e'] <+: past
  before : S.Follows n pre q

section Kept

variable (known : Entry σ ω ρ μ γ β → Prop) (P : ι → List (Heard σ ω ρ μ γ β) → κ → Prop)
variable (R : ι → List (Heard σ ω ρ μ γ β) → Except ε α → Prop)

/-- What a request's program does, in the terms of the engine. -/
abbrev Behaves (S : Service σ ω ρ μ γ β κ ι ε α) (i : ι) (p : Client κ β ε α)
    (past : List (Heard σ ω ρ μ γ β)) : Prop :=
  p.Does (fun e => S.name e.entry.call) Heard.reply (fun e => known e.entry) (P i) (R i) past

/-- Each call of a visit was as it had to be, after the ones before it. -/
def Traced (S : Service σ ω ρ μ γ β κ ι ε α) (i : ι) (past : List (Heard σ ω ρ μ γ β)) : Prop :=
  ∀ q e q', past = q ++ e :: q' → P i q (S.name e.entry.call)

/-- A visit in progress. -/
structure VisitKept (S : Service σ ω ρ μ γ β κ ι ε α) (d : System σ ω ρ μ γ β)
    (x : Visit σ ω ρ μ γ β κ ι ε α) : Prop where
  behaves : S.Behaves known P R x.request x.rest x.past
  traced : S.Traced P x.request x.past
  past : S.Follows x.since d.world.history x.past
  waits : ∀ t, x.waits = some t → ∃ y k, d.tasks.get t = some y
    ∧ x.rest = .call (S.name y.call) k ∧ S.engine.AtRead x.since y d.world

/-- What every run keeps. -/
structure Kept (S : Service σ ω ρ μ γ β κ ι ε α) (s : Server σ ω ρ μ γ β κ ι ε α) : Prop where
  visit : ∀ n x, s.visits.get n = some x → S.VisitKept known P R s.system x
  single : ∀ n n' x x' t, s.visits.get n = some x → s.visits.get n' = some x' →
    x.waits = some t → x'.waits = some t → n = n'
  task : ∀ t y, s.system.tasks.get t = some y →
    S.background y.call ∨ ∃ n x, s.visits.get n = some x ∧ x.waits = some t
  owned : ∀ pre e post, s.system.world.history = pre ++ e :: post →
    S.background e.call ∨ ∃ i n q, S.Owned s pre e i n q ∧ P i q (S.name e.call)
  answered : ∀ a ∈ s.answered, R a.request a.past a.answer ∧ S.Traced P a.request a.past
    ∧ S.Follows a.since s.system.world.history a.past

/-! ## One step -/

section Frame

variable {known P R} {d : System σ ω ρ μ γ β} {n m : ℕ} {i : ι}
variable {x x' : Visit σ ω ρ μ γ β κ ι ε α} {past : List (Heard σ ω ρ μ γ β)}
variable {history history' : List (Entry σ ω ρ μ γ β)}

omit [DecidableEq ρ] in
/-- A visit that has just come in follows whatever there is. -/
theorem Follows.nil (h : m ≤ history.length) : S.Follows m history [] where
  since := h
  order := List.nil_sublist _
  reads _ h := absurd h List.not_mem_nil

omit [DecidableEq ρ] in
/-- What has been heard stays heard, however the history goes on. -/
theorem Follows.mono (h : S.Follows m history past) (hle : history <+: history') :
    S.Follows m history' past where
  since := h.since.trans hle.length_le
  order := h.order.trans (hle.drop m).sublist
  reads e he := by
    obtain ⟨pre, post, rfl, hm, hread⟩ := h.reads e he
    obtain ⟨more, rfl⟩ := hle
    exact ⟨pre, post ++ more, by rw [List.append_assoc, List.cons_append], hm, hread⟩

omit [DecidableEq ρ] in
/-- One more call has ended. It is the last of the history then, so the order is kept, and what it
has read is no older than the visit. -/
theorem Follows.concat (h : S.Follows m history past) {e : Heard σ ω ρ μ γ β}
    (he : S.engine.ReadSince m history e.entry) :
    S.Follows m (history ++ [e.entry]) (past ++ [e]) where
  since := h.since.trans (List.prefix_append _ _).length_le
  order := by
    rw [List.map_append, List.drop_append_of_le_length h.since]
    exact h.order.append (List.Sublist.refl _)
  reads e' he' := by
    obtain he' | he' := List.mem_append.mp he'
    · exact (h.mono (List.prefix_append _ _)).reads e' he'
    · cases List.mem_singleton.mp he'
      exact ⟨history, [], rfl, h.since, he⟩

omit [DecidableEq ρ] in
/-- A visit stays what it is when the call it waits for does. Nothing else of the system is spoken
of in `VisitKept`, so this is all that a step of others has to leave alone. -/
theorem VisitKept.frame (h : S.VisitKept known P R s.system x)
    (hhistory : s.system.world.history <+: d.world.history)
    (htask : ∀ t y, x.waits = some t → s.system.tasks.get t = some y →
      ∃ y', d.tasks.get t = some y' ∧ y'.call = y.call
        ∧ (S.engine.AtRead x.since y s.system.world → S.engine.AtRead x.since y' d.world)) :
    S.VisitKept known P R d x := by
  refine ⟨h.behaves, h.traced, h.past.mono hhistory, fun t ht => ?_⟩
  obtain ⟨y, k, hy, hrest, hread⟩ := h.waits t ht
  obtain ⟨y', hy', hcall, hlater⟩ := htask t y ht hy
  exact ⟨y', k, hy', hcall ▸ hrest, hlater hread⟩

omit [DecidableEq ρ] in
/-- A record is only ever added to: when a visit changes, what it had heard is the beginning of
what it has heard since, -/
theorem Record.put (h : Record s i m past)
    (hold : ∀ x, s.visits.get n = some x →
      x'.request = x.request ∧ x'.since = x.since ∧ x.past <+: x'.past) :
    ∃ past', Record { s with system := d, visits := s.visits.put n (some x') } i m past'
      ∧ past <+: past' := by
  obtain ⟨n', y, hy, rfl, rfl, rfl⟩ | ⟨a, ha, hrecord⟩ := h
  · by_cases hn : n' = n
    · subst hn
      obtain ⟨hrequest, hsince, hpast⟩ := hold y hy
      exact ⟨x'.past, .inl ⟨n', x', Store.get_put_self _ _ _, hrequest, hsince, rfl⟩, hpast⟩
    · refine ⟨y.past, .inl ⟨n', y, ?_, rfl, rfl, rfl⟩, List.prefix_rfl⟩
      exact (Store.get_put_of_ne hn).trans hy
  · exact ⟨past, .inr ⟨a, ha, hrecord⟩, List.prefix_rfl⟩

omit [DecidableEq ρ] in
/-- and when it is over, all that it had heard goes with its answer. -/
theorem Record.over (h : Record s i m past) (hx : s.visits.get n = some x) {r : Except ε α} :
    Record { s with
      visits := s.visits.put n none
      answered := s.answered ++ [⟨x.request, x.since, x.past, r⟩] } i m past := by
  obtain ⟨n', y, hy, rfl, rfl, rfl⟩ | ⟨a, ha, hrecord⟩ := h
  · by_cases hn : n' = n
    · subst hn
      cases hx.symm.trans hy
      exact .inr ⟨_, List.mem_append_right _ List.mem_cons_self, rfl, rfl, rfl⟩
    · exact .inl ⟨n', y, (Store.get_put_of_ne hn).trans hy, rfl, rfl, rfl⟩
  · exact .inr ⟨a, List.mem_append_left _ ha, hrecord⟩

omit [DecidableEq ρ] in
/-- A call once made belongs to its visit for good, since records are only added to. -/
theorem Owned.mono {pre : List (Entry σ ω ρ μ γ β)} {e : Entry σ ω ρ μ γ β}
    {q : List (Heard σ ω ρ μ γ β)} (h : S.Owned s pre e i m q)
    (hrecord : ∀ past, Record s i m past → ∃ past', Record s' i m past' ∧ past <+: past') :
    S.Owned s' pre e i m q := by
  obtain ⟨past, e', he', hpast, hpre⟩ := h.record
  obtain ⟨past', hpast', hle⟩ := hrecord past hpast
  exact ⟨⟨past', e', he', hpast', hpre.trans hle⟩, h.before⟩

omit [DecidableEq ρ] in
/-- **Only the transaction system moves.** No call ends, and what starts is background; every call
in flight keeps its number and its name, so whoever waits for it still does. -/
theorem Kept.move (h : S.Kept known P R s) (hworld : d.world = s.system.world)
    (hkeep : ∀ t y, s.system.tasks.get t = some y → ∃ y', d.tasks.get t = some y'
      ∧ y'.call = y.call ∧ ∀ m, m ≤ s.system.world.history.length →
        S.engine.AtRead m y s.system.world → S.engine.AtRead m y' s.system.world)
    (hnew : ∀ t y, d.tasks.get t = some y →
      S.background y.call ∨ ∃ y', s.system.tasks.get t = some y' ∧ y'.call = y.call) :
    S.Kept known P R { s with system := d } where
  visit n x hx := by
    have hv := h.visit n x hx
    refine hv.frame (hworld ▸ List.prefix_rfl) fun t y _ hy => ?_
    obtain ⟨y', hy', hcall, hread⟩ := hkeep t y hy
    rw [hworld]
    exact ⟨y', hy', hcall, hread x.since hv.past.since⟩
  single := h.single
  task t y hy := by
    obtain hback | ⟨y', hy', hcall⟩ := hnew t y hy
    · exact .inl hback
    · exact (h.task t y' hy').imp_left fun hback => hcall ▸ hback
  owned pre e post hsplit := by
    refine (h.owned pre e post (hworld ▸ hsplit)).imp_right ?_
    rintro ⟨i, m, q, howned, hP⟩
    exact ⟨i, m, q, howned.mono fun past hpast => ⟨past, hpast, List.prefix_rfl⟩, hP⟩
  answered a ha := by
    rw [hworld]
    exact h.answered a ha

omit [DecidableEq ρ] in
/-- **One visit changes**, or comes in. The hypotheses say what of it can be seen from outside: its
record grows, it waits for no call that somebody else waits for, and any call that has ended since
is its own. -/
theorem Kept.put (h : S.Kept known P R s) (hvisit : S.VisitKept known P R d x')
    (hold : ∀ x, s.visits.get n = some x →
      x'.request = x.request ∧ x'.since = x.since ∧ x.past <+: x'.past)
    (hothers : ∀ n' x, n' ≠ n → s.visits.get n' = some x →
      S.VisitKept known P R d x ∧ ∀ t, x'.waits = some t → x.waits ≠ some t)
    (htask : ∀ t y, d.tasks.get t = some y → S.background y.call ∨ x'.waits = some t
      ∨ ∃ n' x, n' ≠ n ∧ s.visits.get n' = some x ∧ x.waits = some t)
    (hhistory : s.system.world.history <+: d.world.history)
    (howned : ∀ pre e post, d.world.history = pre ++ e :: post →
      (∃ post', s.system.world.history = pre ++ e :: post') ∨
        ∃ q e', e'.entry = e ∧ q ++ [e'] <+: x'.past ∧ S.Follows x'.since pre q
          ∧ P x'.request q (S.name e.call)) :
    S.Kept known P R { s with system := d, visits := s.visits.put n (some x') } where
  visit n' y hy := by
    by_cases hn : n' = n
    · subst hn
      rw [Store.get_put_self, Option.some.injEq] at hy
      exact hy ▸ hvisit
    · rw [Store.get_put_of_ne hn] at hy
      exact (hothers n' y hn hy).1
  single m m' y y' t hy hy' hw hw' := by
    -- Two visits, each of which may be the one that changes.
    by_cases hm : m = n <;> by_cases hm' : m' = n
    · exact hm.trans hm'.symm
    · subst hm
      rw [Store.get_put_self, Option.some.injEq] at hy
      rw [Store.get_put_of_ne hm'] at hy'
      subst hy
      exact absurd hw' ((hothers m' y' hm' hy').2 t hw)
    · subst hm'
      rw [Store.get_put_self, Option.some.injEq] at hy'
      rw [Store.get_put_of_ne hm] at hy
      subst hy'
      exact absurd hw ((hothers m y hm hy).2 t hw')
    · rw [Store.get_put_of_ne hm] at hy
      rw [Store.get_put_of_ne hm'] at hy'
      exact h.single m m' y y' t hy hy' hw hw'
  task t y hy := by
    refine (htask t y hy).imp_right ?_
    rintro (hw | ⟨n', x, hn, hx, hw⟩)
    · exact ⟨n, x', Store.get_put_self _ _ _, hw⟩
    · exact ⟨n', x, (Store.get_put_of_ne hn).trans hx, hw⟩
  owned pre e post hsplit := by
    obtain ⟨post', hpost⟩ | ⟨q, e', he', hq, hpre, hP⟩ := howned pre e post hsplit
    · refine (h.owned pre e post' hpost).imp_right ?_
      rintro ⟨i, m, q, hown, hP⟩
      exact ⟨i, m, q, hown.mono fun past hpast => hpast.put hold, hP⟩
    · refine .inr ⟨x'.request, x'.since, q, ⟨⟨x'.past, e', he', ?_, hq⟩, hpre⟩, hP⟩
      exact .inl ⟨n, x', Store.get_put_self _ _ _, rfl, rfl, rfl⟩
  answered a ha := by
    obtain ⟨hr, htraced, hpast⟩ := h.answered a ha
    exact ⟨hr, htraced, hpast.mono hhistory⟩

omit [DecidableEq ρ] in
/-- **One visit is over.** It waits for no call any more, so no call in flight loses its owner, and
what it has heard is kept with its answer. -/
theorem Kept.over (h : S.Kept known P R s) (hx : s.visits.get n = some x) {r : Except ε α}
    (hwaits : x.waits = none) (hr : R x.request x.past r) :
    S.Kept known P R { s with
      visits := s.visits.put n none
      answered := s.answered ++ [⟨x.request, x.since, x.past, r⟩] } where
  visit n' y hy := by
    by_cases hn : n' = n
    · subst hn
      rw [Store.get_put_self] at hy
      cases hy
    · exact h.visit n' y ((Store.get_put_of_ne hn).symm.trans hy)
  single m m' y y' t hy hy' hw hw' := by
    -- Whoever is still there was there before.
    have hout : ∀ k z, (s.visits.put n none).get k = some z → s.visits.get k = some z := by
      intro k z hz
      by_cases hk : k = n
      · subst hk
        rw [Store.get_put_self] at hz
        cases hz
      · exact (Store.get_put_of_ne hk).symm.trans hz
    exact h.single m m' y y' t (hout m y hy) (hout m' y' hy') hw hw'
  task t y hy := by
    refine (h.task t y hy).imp_right ?_
    rintro ⟨n', z, hz, hw⟩
    refine ⟨n', z, (Store.get_put_of_ne ?_).trans hz, hw⟩
    rintro rfl
    cases hx.symm.trans hz
    cases hwaits.symm.trans hw
  owned pre e post hsplit := by
    refine (h.owned pre e post hsplit).imp_right ?_
    rintro ⟨i, m, q, hown, hP⟩
    exact ⟨i, m, q, hown.mono fun past hpast => ⟨past, hpast.over hx, List.prefix_rfl⟩, hP⟩
  answered a ha := by
    obtain ha | ha := List.mem_append.mp ha
    · exact h.answered a ha
    · cases List.mem_singleton.mp ha
      exact ⟨hr, (h.visit n x hx).traced, (h.visit n x hx).past⟩

omit [DecidableEq ρ] in
/-- **A background call ends.** By `task` every call in flight is background or waited for, so one
that nobody waits for is the former. -/
theorem Kept.passed (h : S.Kept known P R s) {t : ℕ} {y : Task σ ω ρ μ γ β} {o : Outcome ω β}
    (hy : s.system.tasks.get t = some y)
    (hnobody : ∀ n x, s.visits.get n = some x → x.waits ≠ some t) :
    S.Kept known P R { s with system := S.engine.finishTask s.system t y o } where
  visit n x hx := by
    refine (h.visit n x hx).frame (List.prefix_append _ _) fun t' z hw hz => ?_
    have hne : t' ≠ t := by
      rintro rfl
      exact hnobody n x hx hw
    exact ⟨z, (Store.get_put_of_ne hne).trans hz, rfl, fun hread =>
      hread.later (S.engine.states_finish _ _ _ _)⟩
  single := h.single
  task t' z hz := by
    by_cases ht : t' = t
    · subst ht
      simp [Engine.finishTask] at hz
    · exact h.task t' z ((Store.get_put_of_ne ht).symm.trans hz)
  owned pre e post hsplit := by
    obtain ⟨post', hpost⟩ | ⟨-, rfl⟩ := cut_last hsplit
    · refine (h.owned pre e post' hpost).imp_right ?_
      rintro ⟨i, m, q, hown, hP⟩
      exact ⟨i, m, q, hown.mono fun past hpast => ⟨past, hpast, List.prefix_rfl⟩, hP⟩
    -- Nobody waits for the call that ended, so it is one of the background.
    · refine (h.task t y hy).imp_right ?_
      rintro ⟨n, x, hx, hw⟩
      exact absurd hw (hnobody n x hx)
  answered a ha := by
    obtain ⟨hr, htraced, hpast⟩ := h.answered a ha
    exact ⟨hr, htraced, hpast.mono (List.prefix_append _ _)⟩

omit [DecidableEq ρ] in
/-- **A visit has its call answered.** The entry of the call that has ended is the visit's own,
made after all that it had heard before; what the call read, it read after the visit had come in.
-/
theorem Kept.reply (h : S.Kept known P R s) {t : ℕ} {y : Task σ ω ρ μ γ β} {o : Outcome ω β}
    {c : κ} {k : Option β → Client κ β ε α} {e : Heard σ ω ρ μ γ β}
    (hy : s.system.tasks.get t = some y) (hx : s.visits.get n = some x)
    (hwaits : x.waits = some t) (hrest : x.rest = .call c k) (hends : y.Ends o)
    (he : e.entry = ⟨y.call, y.held, o, s.system.world.store⟩) (hknown : known e.entry) :
    S.Kept known P R { s with
      system := S.engine.finishTask s.system t y o
      visits := s.visits.put n
        (some { x with past := x.past ++ [e], rest := k e.reply, waits := none }) } := by
  have hv := h.visit n x hx
  -- The task that ends is the one the visit waits for, so what it read is read since the arrival.
  obtain ⟨y', k', hy', hrest', hread⟩ := hv.waits t hwaits
  cases hy.symm.trans hy'
  cases hrest.symm.trans hrest'
  have hbehaves := hv.behaves
  rw [Behaves, hrest] at hbehaves
  have hname : S.name e.entry.call = S.name y.call := he ▸ rfl
  refine h.put ⟨hbehaves.2 e hknown hname, ?_, ?_, ?_⟩ ?_ ?_ ?_ (List.prefix_append _ _) ?_
  · intro q e' q' hsplit
    obtain ⟨q'', hq⟩ | ⟨rfl, rfl⟩ := cut_last hsplit
    · exact hv.traced q e' q'' hq
    · exact hname ▸ hbehaves.1
  · have hfollows := hv.past.concat (e := e) (he ▸ hread.ends hends)
    rw [he] at hfollows
    exact hfollows
  · rintro t ⟨⟩
  · intro x' hx'
    cases hx.symm.trans hx'
    exact ⟨rfl, rfl, List.prefix_append _ _⟩
  · intro n' x' hn hx'
    refine ⟨(h.visit n' x' hx').frame (List.prefix_append _ _) fun t' z hw hz => ?_, ?_⟩
    · have hne : t' ≠ t := by
        rintro rfl
        exact hn (h.single n' n x' x t' hx' hx hw hwaits)
      exact ⟨z, (Store.get_put_of_ne hne).trans hz, rfl, fun hread =>
        hread.later (S.engine.states_finish _ _ _ _)⟩
    · rintro t' ⟨⟩
  · intro t' z hz
    by_cases ht : t' = t
    · subst ht
      simp [Engine.finishTask] at hz
    · refine (h.task t' z ((Store.get_put_of_ne ht).symm.trans hz)).imp_right ?_
      rintro ⟨n', x', hx', hw⟩
      refine .inr ⟨n', x', ?_, hx', hw⟩
      rintro rfl
      cases hx.symm.trans hx'
      exact ht (Option.some.inj (hw.symm.trans hwaits))
  -- The entry that is new belongs to this visit; the others have had their owners.
  · intro pre e' post hsplit
    obtain hpost | ⟨rfl, rfl⟩ := cut_last hsplit
    · exact .inl hpost
    · exact .inr ⟨x.past, e, he, List.prefix_rfl, hv.past, hbehaves.1⟩

end Frame

variable {known P R}

/-- **One step keeps all of it**, when every program does what is said of it and every call that
ends is as known. There is one case for each kind of step, and each comes down to one of the lemmas
above. -/
theorem Kept.step (h : S.Kept known P R s) (hs : S.Step s s')
    (hserve : ∀ i, S.Behaves known P R i (S.serve i) [])
    (hknown : ∀ e ∈ s'.system.world.history, known e) : S.Kept known P R s' := by
  -- One case for each kind of step; the calls in flight and the history say which parts move.
  cases hs with
  | @arrive n i hn =>
      refine h.put ⟨hserve i, ?_, .nil le_rfl, ?_⟩ ?_ ?_ ?_ List.prefix_rfl ?_
      · intro q e q' hsplit
        simp at hsplit
      · rintro t ⟨⟩
      · intro x hx
        cases hn.symm.trans hx
      · intro n' x _ hx
        refine ⟨h.visit n' x hx, ?_⟩
        rintro t ⟨⟩
      · intro t y hy
        refine (h.task t y hy).imp_right ?_
        rintro ⟨n', x, hx, hw⟩
        refine .inr ⟨n', x, ?_, hx, hw⟩
        rintro rfl
        cases hn.symm.trans hx
      · intro pre e post hsplit
        exact .inl ⟨post, hsplit⟩
  | @submit d n x c k t r hx hwaits hrest hname hmove =>
      obtain ⟨hfree, rfl⟩ := Engine.move_start hmove
      have hv := h.visit n x hx
      have hother : ∀ t' y, s.system.tasks.get t' = some y → t' ≠ t := by
        rintro t' y hy rfl
        cases hfree.symm.trans hy
      refine h.put ⟨hv.behaves, hv.traced, hv.past, ?_⟩ ?_ ?_ ?_ List.prefix_rfl ?_
      · rintro t' ⟨⟩
        exact ⟨_, k, Store.get_put_self _ _ _, hname ▸ hrest, .start r⟩
      · intro x' hx'
        cases hx.symm.trans hx'
        exact ⟨rfl, rfl, List.prefix_rfl⟩
      · intro n' x' _ hx'
        refine ⟨(h.visit n' x' hx').frame List.prefix_rfl fun t' y _ hy => ?_, ?_⟩
        · exact ⟨y, (Store.get_put_of_ne (hother t' y hy)).trans hy, rfl, id⟩
        · rintro t' ⟨⟩ hw
          obtain ⟨y, -, hy, -⟩ := (h.visit n' x' hx').waits t hw
          exact hother t y hy rfl
      -- The new task is waited for by this visit, which has not waited for any other.
      · intro t' y hy
        by_cases ht : t' = t
        · exact .inr (.inl (ht ▸ rfl))
        · refine (h.task t' y ((Store.get_put_of_ne ht).symm.trans hy)).imp_right ?_
          rintro ⟨n', x', hx', hw⟩
          refine .inr ⟨n', x', ?_, hx', hw⟩
          rintro rfl
          cases hx.symm.trans hx'
          cases hwaits.symm.trans hw
      · intro pre e post hsplit
        exact .inl ⟨post, hsplit⟩
  | @background d t r hr hmove =>
      obtain ⟨hfree, rfl⟩ := Engine.move_start hmove
      refine h.move rfl (fun t' y hy => ?_) fun t' y hy => ?_
      · refine ⟨y, (Store.get_put_of_ne ?_).trans hy, rfl, fun _ _ => id⟩
        rintro rfl
        cases hfree.symm.trans hy
      · by_cases ht : t' = t
        · subst ht
          rw [Store.get_put_self, Option.some.injEq] at hy
          exact .inl (hy ▸ hr)
        · exact .inr ⟨y, (Store.get_put_of_ne ht).symm.trans hy, rfl⟩
  | @work d t m hm hmove hgoes =>
      obtain ⟨y, hy, ⟨y', hacts, rfl⟩ | ⟨o, -, rfl⟩⟩ := Engine.move_cases hm hmove
      · have hcall := Engine.Acts.call_eq hacts
        refine h.move rfl (fun t' z hz => ?_) fun t' z hz => ?_
        · by_cases ht : t' = t
          · subst ht
            cases hy.symm.trans hz
            exact ⟨y', Store.get_put_self _ _ _, hcall, fun m hle hread => hread.acts hle hacts⟩
          · exact ⟨z, (Store.get_put_of_ne ht).trans hz, rfl, fun _ _ => id⟩
        · by_cases ht : t' = t
          · subst ht
            rw [Store.get_put_self, Option.some.injEq] at hz
            exact .inr ⟨y, hy, hz ▸ hcall.symm⟩
          · exact .inr ⟨z, (Store.get_put_of_ne ht).symm.trans hz, rfl⟩
      · exact absurd (Store.get_put_self _ _ _) hgoes
  | @reply d t m n x c k e hm hmove hhistory hx hwaits hrest =>
      obtain ⟨y, hy, ⟨y', -, rfl⟩ | ⟨o, hends, rfl⟩⟩ := Engine.move_cases hm hmove
      · simp at hhistory
      · refine h.reply hy hx hwaits hrest hends ?_ (hknown e.entry ?_)
        · exact (List.singleton_inj.mp (List.append_cancel_left hhistory)).symm
        · rw [hhistory]
          exact List.mem_append_right _ List.mem_cons_self
  | @passed d t m hm hmove hends hnobody =>
      obtain ⟨y, hy, ⟨y', -, rfl⟩ | ⟨o, -, rfl⟩⟩ := Engine.move_cases hm hmove
      · simp at hends
      · exact h.passed hy hnobody
  | @answer n x a hx hrest =>
      have hv := h.visit n x hx
      refine h.over hx ?_ ?_
      · refine Option.eq_none_iff_forall_ne_some.mpr fun t ht => ?_
        obtain ⟨y, k, -, hcall, -⟩ := hv.waits t ht
        cases hrest.symm.trans hcall
      · have hbehaves := hv.behaves
        rwa [Behaves, hrest] at hbehaves
  | @fail n x e hx hrest =>
      have hv := h.visit n x hx
      refine h.over hx ?_ ?_
      · refine Option.eq_none_iff_forall_ne_some.mpr fun t ht => ?_
        obtain ⟨y, k, -, hcall, -⟩ := hv.waits t ht
        cases hrest.symm.trans hcall
      · have hbehaves := hv.behaves
        rwa [Behaves, hrest] at hbehaves

/-- **What every run keeps.** By induction over the steps. The history starts empty, so that every
call on record has been made by the background or by a visit. -/
theorem Reachable.kept (h : S.Reachable w s) (hw : w.history = [])
    (hserve : ∀ i, S.Behaves known P R i (S.serve i) [])
    (hknown : ∀ d, S.engine.Reachable w d → ∀ e ∈ d.world.history, known e) :
    S.Kept known P R s := by
  induction h with
  | refl =>
      refine ⟨?_, ?_, ?_, ?_, ?_⟩
      · rintro n x ⟨⟩
      · rintro n n' x x' t ⟨⟩
      · rintro t y ⟨⟩
      · intro pre e post hsplit
        rw [opened, Engine.idle, hw] at hsplit
        simp at hsplit
      · rintro a ⟨⟩
  | tail hrun hs ih =>
      exact ih.step hs hserve (hknown _ (Reachable.system (hrun.tail hs)))

end Kept

end Service

end Txn
