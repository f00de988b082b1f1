/-
Credentials, and the log of what happened to them.

A token is issued to a holder until some time, it may be revoked, again and again, and it goes
when its holder is dropped. `replay` reads a log of such events as the credential that a token
stands for in the end; `replay_eq` says in terms of the events when that is which one. No
token is issued twice (`Fresh`): what a token stands for is then decided by what came after
its issue, and a token that has stopped working never works again (`Live.earlier`).
-/
import Mathlib.Data.List.Nodup
import Mathlib.Order.Lattice

set_option autoImplicit false

namespace Credentials

variable {α κ τ : Type}

/-- What happens to credentials. -/
inductive Event (α κ τ : Type) where
  | issued (a : α) (h : κ) (expires : τ)
  | revoked (a : α) (h : κ) (now : τ)
  | dropped (a : α)
deriving DecidableEq

/-- What a token stands for: since when it is revoked, if it is. -/
structure Credential (α τ : Type) where
  holder : α
  expires : τ
  revoked : Option τ

/-- The token that an event issues. -/
def Event.token : Event α κ τ → Option κ
  | .issued _ h _ => some h
  | .revoked .. | .dropped _ => none

/-- The tokens that a log issues. -/
def tokens (log : List (Event α κ τ)) : List κ := log.filterMap Event.token

/-- No token is issued twice. -/
def Fresh (log : List (Event α κ τ)) : Prop := (tokens log).Nodup

variable [DecidableEq α] [DecidableEq κ]

/-- What an event makes of the credential of `h`. A first revocation stays. -/
def Event.apply (h : κ) : Event α κ τ → Option (Credential α τ) →
    Option (Credential α τ)
  | .issued a h' expires, c => if h' = h then some ⟨a, expires, none⟩ else c
  | .revoked a h' now, c => c.map fun c =>
      if h' = h ∧ c.holder = a then { c with revoked := some (c.revoked.getD now) } else c
  | .dropped a, c => c.filter fun c => c.holder ≠ a

/-- The credential of a token after some events. -/
def continued (h : κ) (log : List (Event α κ τ))
    (c : Option (Credential α τ)) : Option (Credential α τ) :=
  log.foldl (fun c e => e.apply h c) c

/-- The credential of a token after a whole log. -/
def replay (log : List (Event α κ τ)) (h : κ) : Option (Credential α τ) :=
  continued h log none

/-- When the token of a holder is first revoked. -/
def revocation (a : α) (h : κ) : List (Event α κ τ) → Option τ
  | [] => none
  | .revoked a' h' now :: log => if h' = h ∧ a = a' then some now else revocation a h log
  | .issued .. :: log | .dropped _ :: log => revocation a h log

variable {log pre post more : List (Event α κ τ)} {h : κ} {a : α}
variable {expires : τ} {c : Credential α τ}

/-- Without a revocation in the log there is no time of the first one. -/
theorem revocation_eq_none : revocation a h log = none ↔ ∀ now, .revoked a h now ∉ log := by
  induction log with
  | nil => simp [revocation]
  | cons e log ih =>
      cases e with
      | issued a' h' x => simpa [revocation] using ih
      | dropped a' => simpa [revocation] using ih
      | revoked a' h' now =>
          rw [revocation]
          split
          case isTrue heq =>
            obtain ⟨rfl, rfl⟩ := heq
            simp only [reduceCtorEq, false_iff, not_forall, not_not]
            exact ⟨now, List.mem_cons_self⟩
          case isFalse hne =>
            rw [ih]
            refine forall_congr' fun t => not_congr ?_
            rw [List.mem_cons, or_iff_right]
            rintro ⟨⟩
            exact hne ⟨rfl, rfl⟩

/-! ## Tokens are issued once -/

omit [DecidableEq α] [DecidableEq κ] in
/-- A token is among those of a log when it was issued to somebody. -/
theorem mem_tokens : h ∈ tokens log ↔ ∃ a expires, .issued a h expires ∈ log := by
  rw [tokens, List.mem_filterMap]
  constructor
  · rintro ⟨e, he, htoken⟩
    cases e with
    | issued a h' expires =>
        cases htoken
        exact ⟨a, expires, he⟩
    | revoked | dropped => cases htoken
  · rintro ⟨a, expires, he⟩
    exact ⟨_, he, rfl⟩

omit [DecidableEq α] [DecidableEq κ] in
/-- A part of a log issues no token twice either. -/
theorem Fresh.left (hfresh : Fresh (log ++ more)) : Fresh log := by
  rw [Fresh, tokens, List.filterMap_append] at hfresh
  exact hfresh.of_append_left

omit [DecidableEq α] [DecidableEq κ] in
/-- What was issued in the first part of a log is not issued in the rest. -/
theorem Fresh.not_later (hfresh : Fresh (log ++ more)) (hissued : .issued a h expires ∈ log) :
    h ∉ tokens more := by
  rw [Fresh, tokens, List.filterMap_append] at hfresh
  exact fun hmem => List.disjoint_of_nodup_append hfresh (mem_tokens.mpr ⟨a, expires, hissued⟩) hmem

omit [DecidableEq α] [DecidableEq κ] in
/-- A token is not issued again after its issue. -/
theorem Fresh.not_after (hfresh : Fresh (pre ++ .issued a h expires :: post)) :
    h ∉ tokens post := by
  rw [List.append_cons] at hfresh
  exact hfresh.not_later (List.mem_append_right _ List.mem_cons_self)

omit [DecidableEq α] [DecidableEq κ] in
/-- A token is not issued before its issue. -/
theorem Fresh.not_before (hfresh : Fresh (pre ++ .issued a h expires :: post)) :
    h ∉ tokens pre := by
  rw [Fresh, tokens, List.filterMap_append] at hfresh
  exact fun hmem => List.disjoint_of_nodup_append hfresh hmem
    (mem_tokens.mpr ⟨a, expires, List.mem_cons_self⟩)

/-! ## Replaying a log -/

@[simp] theorem continued_nil (c : Option (Credential α τ)) : continued h [] c = c := rfl

@[simp] theorem continued_cons (e : Event α κ τ) (c : Option (Credential α τ)) :
    continued h (e :: log) c = continued h log (e.apply h c) := rfl

/-- A log in two parts is replayed one part after the other. -/
theorem continued_append (c : Option (Credential α τ)) :
    continued h (log ++ more) c = continued h more (continued h log c) :=
  List.foldl_append

/-- One more event does what it does to the credential the log stands for. -/
theorem replay_append (e : Event α κ τ) (h : κ) :
    replay (log ++ [e]) h = e.apply h (replay log h) :=
  continued_append none

/-- Nothing comes of a token that is not issued: no other event makes a credential. -/
theorem continued_none (hnot : h ∉ tokens log) : continued h log none = none := by
  induction log with
  | nil => rfl
  | cons e log ih =>
      have hrest : h ∉ tokens log := fun hmem => hnot <| by
        obtain ⟨a, x, hin⟩ := mem_tokens.mp hmem
        exact mem_tokens.mpr ⟨a, x, List.mem_cons_of_mem _ hin⟩
      cases e with
      | issued a h' x =>
          have hne : h' ≠ h := by
            rintro rfl
            exact hnot (mem_tokens.mpr ⟨a, x, List.mem_cons_self⟩)
          rw [continued_cons, Event.apply, if_neg hne]
          exact ih hrest
      | revoked | dropped => exact ih hrest

/-- A token that is not issued again goes with its holder, and otherwise keeps what it is until its
first revocation. The induction is on the events, each of which leaves the holder and the end
alone. -/
theorem continued_some (hnot : h ∉ tokens log) :
    (.dropped c.holder ∈ log ∧ continued h log (some c) = none)
    ∨ (.dropped c.holder ∉ log ∧ continued h log (some c)
      = some { c with revoked := c.revoked <|> revocation c.holder h log }) := by
  induction log generalizing c with
  | nil => exact .inr ⟨List.not_mem_nil, by simp [revocation]⟩
  | cons e log ih =>
      have hrest : h ∉ tokens log := fun hmem => hnot <| by
        obtain ⟨a, x, hin⟩ := mem_tokens.mp hmem
        exact mem_tokens.mpr ⟨a, x, List.mem_cons_of_mem _ hin⟩
      cases e with
      | issued a h' x =>
          have hne : h' ≠ h := by
            rintro rfl
            exact hnot (mem_tokens.mpr ⟨a, x, List.mem_cons_self⟩)
          rw [continued_cons, Event.apply, if_neg hne]
          simpa [revocation] using ih (c := c) hrest
      | revoked a h' now =>
          rw [continued_cons, Event.apply, Option.map_some, revocation]
          by_cases heq : h' = h ∧ c.holder = a
          · -- The first revocation decides.
            rw [if_pos heq, if_pos heq]
            have hstays := ih (c := { c with revoked := some (c.revoked.getD now) }) hrest
            cases hr : c.revoked with
            | none => simpa [hr] using hstays
            | some t => simpa [hr] using hstays
          · rw [if_neg heq, if_neg heq]
            simpa using ih (c := c) hrest
      | dropped a =>
          rw [continued_cons, Event.apply]
          by_cases heq : c.holder = a
          · subst heq
            exact .inl ⟨List.mem_cons_self, by simpa [Option.filter_some] using continued_none hrest⟩
          · simpa [heq, revocation, Option.filter_some] using ih (c := c) hrest

/-- **What a token stands for**: it was issued so, its holder was not dropped since, and its first
revocation since then is this one. The log is cut at the one issue of the token: nothing comes of
it before, and what comes after is `continued_some`. -/
theorem replay_eq (hfresh : Fresh log) : replay log h = some c ↔ ∃ pre post,
    log = pre ++ .issued c.holder h c.expires :: post ∧ .dropped c.holder ∉ post
      ∧ c.revoked = revocation c.holder h post := by
  -- Whatever came before the issue, the credential begins with it.
  have hsplit : ∀ pre post a x, log = pre ++ .issued a h x :: post →
      replay log h = continued h post (some ⟨a, x, none⟩) := by
    rintro pre post a x rfl
    rw [replay, continued_append, continued_cons, Event.apply, if_pos rfl]
  constructor
  · intro hreplay
    have hissued : h ∈ tokens log := by
      by_contra hnot
      cases (continued_none hnot).symm.trans hreplay
    obtain ⟨a, x, hmem⟩ := mem_tokens.mp hissued
    obtain ⟨pre, post, heq⟩ := List.append_of_mem hmem
    have hcontinued := (hsplit pre post a x heq).symm.trans hreplay
    obtain ⟨-, hnone⟩ | ⟨hstays, hsome⟩ := continued_some (c := ⟨a, x, none⟩) (heq ▸ hfresh).not_after
    · cases hnone.symm.trans hcontinued
    · cases hsome.symm.trans hcontinued
      exact ⟨pre, post, heq, hstays, by simp⟩
  · rintro ⟨pre, post, heq, hstays, hrevoked⟩
    rw [hsplit pre post _ _ heq]
    obtain ⟨hdropped, -⟩ | ⟨-, hsome⟩ :=
      continued_some (c := ⟨c.holder, c.expires, none⟩) (heq ▸ hfresh).not_after
    · exact absurd hdropped hstays
    · rw [hsome]
      simp [← hrevoked]

/-- What a token stands for later it has stood for since it was issued, but for its revocation:
later events can take a credential away, and cannot bring one back. -/
theorem replay_earlier {c' : Credential α τ} (hfresh : Fresh (log ++ more)) (hissued : h ∈ tokens log)
    (hreplay : replay (log ++ more) h = some c') : ∃ c, replay log h = some c
      ∧ c'.holder = c.holder ∧ c'.expires = c.expires ∧ (c'.revoked = none → c.revoked = none) := by
  obtain ⟨b, x, hmem⟩ := mem_tokens.mp hissued
  have hnot := hfresh.not_later hmem
  rw [replay, continued_append] at hreplay
  cases hbefore : continued h log none with
  | none =>
      rw [hbefore, continued_none hnot] at hreplay
      cases hreplay
  | some c =>
      rw [hbefore] at hreplay
      obtain ⟨-, hnone⟩ | ⟨-, hsome⟩ := continued_some (c := c) hnot
      · cases hnone.symm.trans hreplay
      · cases hsome.symm.trans hreplay
        refine ⟨c, hbefore, rfl, rfl, fun hrevoked => ?_⟩
        cases hr : c.revoked with
        | none => rfl
        | some t => simp [hr] at hrevoked

/-! ## Tokens that work -/

variable [LinearOrder τ] {now now' : τ}

/-- The token works for `a`: it is neither revoked nor expired. -/
def Live (log : List (Event α κ τ)) (h : κ) (now : τ) (a : α) : Prop :=
  ∃ c, replay log h = some c ∧ c.holder = a ∧ c.revoked = none ∧ now < c.expires

/-- **When a token works**, by the events: it was issued to its holder, not revoked for that holder
since, and its holder was not dropped. -/
theorem live_iff (hfresh : Fresh log) : Live log h now a ↔ ∃ pre post expires,
    log = pre ++ .issued a h expires :: post ∧ now < expires
      ∧ (∀ t, .revoked a h t ∉ post) ∧ .dropped a ∉ post := by
  constructor
  · rintro ⟨c, hreplay, rfl, hrevoked, hlt⟩
    obtain ⟨pre, post, heq, hstays, hfirst⟩ := (replay_eq hfresh).mp hreplay
    exact ⟨pre, post, c.expires, heq, hlt, revocation_eq_none.mp (hfirst.symm.trans hrevoked), hstays⟩
  · rintro ⟨pre, post, expires, heq, hlt, hnot, hstays⟩
    refine ⟨⟨a, expires, none⟩, (replay_eq hfresh).mpr ⟨pre, post, heq, hstays, ?_⟩, rfl, rfl, hlt⟩
    exact (revocation_eq_none.mpr hnot).symm

/-- **A token that works has worked since it was issued**: a token that has stopped working never
works again. -/
theorem Live.earlier (hfresh : Fresh (log ++ more)) (hissued : h ∈ tokens log)
    (hnow : now ≤ now') (hlive : Live (log ++ more) h now' a) : Live log h now a := by
  obtain ⟨c', hreplay, rfl, hrevoked, hlt⟩ := hlive
  obtain ⟨c, hbefore, hholder, hexpires, hnone⟩ := replay_earlier hfresh hissued hreplay
  exact ⟨c, hbefore, hholder.symm, hnone hrevoked, hexpires ▸ hnow.trans_lt hlt⟩

end Credentials
