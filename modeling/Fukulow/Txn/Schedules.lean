/-
Schedules of a server: a run that is written down step by step.

`Service.run` plays a schedule, so that a run can be computed; in it a visit hears of a call
what the call has answered, which is one of the ways that `Service.Step` allows.
-/
import Fukulow.Txn.Server

set_option autoImplicit false

namespace Txn

namespace Service

variable {σ ω ρ μ γ β κ ι ε α : Type} [DecidableEq ρ] {S : Service σ ω ρ μ γ β κ ι ε α}
variable {w : World σ ω ρ μ γ β} {s s' : Server σ ω ρ μ γ β κ ι ε α}

/-- What is to happen next. A visit names its call; `τ` is what the call takes beside its name. -/
inductive Act (γ τ ι : Type) where
  | arrive (n : ℕ) (i : ι)
  | submit (n t : ℕ) (extra : τ)
  | background (t : ℕ) (r : γ)
  | advance (t : ℕ)
  | answer (n : ℕ)

/-- The visit that waits for the call `t`. -/
def waiting (s : Server σ ω ρ μ γ β κ ι ε α) (t : ℕ) : Option ℕ :=
  s.visits.keys.find? fun n => (s.visits.get n).any fun x => x.waits = some t

variable {τ : Type} (S) [DecidablePred S.background] (ask : κ → τ → γ)

/-- A visit hears how the call ended, as it did. -/
def hear (s : Server σ ω ρ μ γ β κ ι ε α) (n : ℕ) (x : Visit σ ω ρ μ γ β κ ι ε α)
    (d : System σ ω ρ μ γ β) : Option (Server σ ω ρ μ γ β κ ι ε α) :=
  match x.rest, d.world.history.getLast? with
  | .call _ k, some entry => some { s with
      system := d
      visits := s.visits.put n (some { x with
        past := x.past ++ [⟨entry, entry.outcome.reply, .inr rfl⟩]
        rest := k entry.outcome.reply
        waits := none }) }
  | _, _ => none

/-- A call goes on, and whoever waits for it hears of its end. -/
def settle (s : Server σ ω ρ μ γ β κ ι ε α) (t : ℕ) (d : System σ ω ρ μ γ β) :
    Option (Server σ ω ρ μ γ β κ ι ε α) :=
  if (d.tasks.get t).isSome then some { s with system := d }
  else match waiting s t with
    | none => some { s with system := d }
    | some n => (s.visits.get n).bind fun x => hear s n x d

def act (s : Server σ ω ρ μ γ β κ ι ε α) : Act γ τ ι → Option (Server σ ω ρ μ γ β κ ι ε α)
  | .arrive n i => if (s.visits.get n).isNone then some { s with
      visits := s.visits.put n (some ⟨i, s.system.world.history.length, [], S.serve i, none⟩) } else none
  | .submit n t extra => (s.visits.get n).bind fun x =>
      match x.waits, x.rest with
      | none, .call c _ => (S.engine.move s.system (.start t (ask c extra))).map fun d => { s with
          system := d, visits := s.visits.put n (some { x with waits := some t }) }
      | _, _ => none
  | .background t r => if S.background r then
      (S.engine.move s.system (.start t r)).map fun d => { s with system := d } else none
  | .advance t => (S.engine.move s.system (.advance t)).bind (settle s t)
  | .answer n => (s.visits.get n).bind fun x =>
      match x.rest with
      | .pure a => some { s with
          visits := s.visits.put n none
          answered := s.answered ++ [⟨x.request, x.since, x.past, .ok a⟩] }
      | .throw e => some { s with
          visits := s.visits.put n none
          answered := s.answered ++ [⟨x.request, x.since, x.past, .error e⟩] }
      | .call _ _ => none

def run (s : Server σ ω ρ μ γ β κ ι ε α) :
    List (Act γ τ ι) → Option (Server σ ω ρ μ γ β κ ι ε α)
  | [] => some s
  | m :: ms => (S.act ask s m).bind fun s' => run s' ms

variable {S ask}

omit [DecidablePred S.background] in
/-- A call that goes on is a step, whether it ends or not, and whether anybody hears of it: there
is one kind of step for each of the three. -/
theorem Step.settle {t : ℕ} {d : System σ ω ρ μ γ β}
    (hmove : S.engine.move s.system (.advance t) = some d) (h : settle s t d = some s') :
    S.Step s s' := by
  unfold Service.settle at h
  by_cases hgoes : (d.tasks.get t).isSome = true
  · rw [if_pos hgoes, Option.some.injEq] at h
    exact h ▸ .work (.inl rfl) hmove (Option.isSome_iff_ne_none.mp hgoes)
  rw [if_neg hgoes] at h
  have hnone : d.tasks.get t = none := Option.not_isSome_iff_eq_none.mp hgoes
  cases hwaiting : waiting s t with
  | none =>
      simp only [hwaiting, Option.some.injEq] at h
      refine h ▸ .passed (.inl rfl) hmove hnone fun n x hx hw => ?_
      have hkey : n ∈ s.visits.keys := s.visits.covers n (by simp [hx])
      have hnot := List.find?_eq_none.mp hwaiting n hkey
      simp [hx, hw] at hnot
  | some n =>
      simp only [hwaiting] at h
      obtain ⟨x, hx, hhear⟩ := Option.bind_eq_some_iff.mp h
      have hw : x.waits = some t := by
        have hfound := List.find?_some hwaiting
        simpa [hx] using hfound
      obtain ⟨y, -, ⟨y', -, rfl⟩ | ⟨o, -, rfl⟩⟩ := Engine.move_cases (.inl rfl) hmove
      · simp at hnone
      unfold hear at hhear
      cases hrest : x.rest with
      | pure a | throw e => simp [hrest] at hhear
      | call c k =>
          simp only [hrest, Engine.finishTask, Engine.finish, List.getLast?_concat,
            Option.some.injEq] at hhear
          exact hhear ▸ .reply ⟨_, _, .inr rfl⟩ (.inl rfl) hmove rfl hx hw hrest

/-- Each act is one step of the server. -/
theorem Step.of_act (hask : ∀ c extra, S.name (ask c extra) = c) {m : Act γ τ ι}
    (h : S.act ask s m = some s') : S.Step s s' := by
  cases m with
  | arrive n i =>
      rw [act] at h
      by_cases hn : (s.visits.get n).isNone = true
      · rw [if_pos hn, Option.some.injEq] at h
        exact h ▸ .arrive i (Option.isNone_iff_eq_none.mp hn)
      · rw [if_neg hn] at h
        cases h
  | submit n t extra =>
      obtain ⟨x, hx, h⟩ := Option.bind_eq_some_iff.mp h
      cases hwaits : x.waits with
      | some t' => simp [hwaits] at h
      | none =>
          cases hrest : x.rest with
          | pure a | throw e => simp [hwaits, hrest] at h
          | call c k =>
              simp only [hwaits, hrest] at h
              obtain ⟨d, hmove, rfl⟩ := Option.map_eq_some_iff.mp h
              have hstep := Step.submit hx hwaits hrest (hask c extra) hmove
              rwa [hrest] at hstep
  | background t r =>
      rw [act] at h
      by_cases hr : S.background r
      · rw [if_pos hr] at h
        obtain ⟨d, hmove, rfl⟩ := Option.map_eq_some_iff.mp h
        exact .background hr hmove
      · rw [if_neg hr] at h
        cases h
  | advance t =>
      obtain ⟨d, hmove, h⟩ := Option.bind_eq_some_iff.mp h
      exact .settle hmove h
  | answer n =>
      obtain ⟨x, hx, h⟩ := Option.bind_eq_some_iff.mp h
      cases hrest : x.rest with
      | pure a =>
          simp only [hrest, Option.some.injEq] at h
          exact h ▸ .answer hx hrest
      | throw e =>
          simp only [hrest, Option.some.injEq] at h
          exact h ▸ .fail hx hrest
      -- A visit that still has a call to make is not answered yet.
      | call c k => simp [hrest] at h

/-- A schedule is a run. It is one of the milder ones, in which no call is aborted and no
connection breaks. -/
theorem Reachable.of_run (hask : ∀ c extra, S.name (ask c extra) = c) {ms : List (Act γ τ ι)}
    (h : S.run ask s ms = some s') (hs : S.Reachable w s) : S.Reachable w s' := by
  induction ms generalizing s with
  | nil =>
      cases h
      exact hs
  | cons m ms ih =>
      obtain ⟨s₁, hact, hrest⟩ := Option.bind_eq_some_iff.mp h
      exact ih hrest (hs.tail (.of_act hask hact))

end Service

end Txn
