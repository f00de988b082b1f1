/-
A sign-in decides once, and a departure that races it is no database error.

The `users` row is read long before the session is inserted, with no lock in between. What
carries over is that a user's row is never updated, and that it disappears only when its actor
departs (`user_kept`): so once `lock_actor` has found the actor present, the row read at the
start is still the row, the second read of it succeeds, the insert finds what it references,
and only a session with the same id or the same token can stand in its way.

`Decided` lists the endings. A walk through `sign_in_asking` shows that there are no others,
at every interleaving.
-/
import Fukulow.Asking
import Fukulow.References
import Fukulow.Departures

set_option autoImplicit false

namespace Fukulow

open Txn (LockMode)

/-! ## Users and their actors -/

/-- A consistent state in which every user is an actor. -/
structure Peopled (db : Database) : Prop extends Consistent db where
  actor : ∀ a, db.user a ≠ none → db.actor a ≠ none

theorem Peopled.empty : Peopled Database.empty where
  toConsistent := .empty
  actor _ h := absurd rfl h

section Commits

variable {guarded : Bool} {q : Request} {ws : List Write} {reply : Reply} {db : Database}
variable {a : ActorId} {r : UserRow}

/-- Every commit keeps that users are actors: a new user comes with its actor, and actors stay. -/
theorem CommitSpec.peopled (h : CommitSpec guarded q ws reply db) (hp : Peopled db) :
    Peopled (view ws db) where
  toConsistent := h.consistent hp.toConsistent
  actor a ha := by
    rcases h.effect_or_same (.user a) with hsame | heffect
    · rw [Database.user, hsame] at ha
      exact h.stays rfl (hp.actor a ha)
    · generalize hr : (view ws db).rows.get (.user a) = r at heffect
      cases heffect with
      | user_created _ email hash _ hactor => exact hactor
      | departed _ _ x _ _ _ _ hx _ => exact h.stays rfl (hp.actor a (by simp [Database.user, hx]))

/-- A user's row stays as it is for as long as its actor does not depart. No statement updates a
user, and the only `DELETE` is that of a departure. -/
theorem CommitSpec.user_stays (h : CommitSpec guarded q ws reply db) (hp : Peopled db)
    (hr : db.user a = some r) (ha : (view ws db).departed a = false) :
    (view ws db).user a = some r := by
  rcases h.effect_or_same (.user a) with hsame | heffect
  · exact hsame.trans hr
  · generalize hx : (view ws db).rows.get (.user a) = x at heffect
    cases heffect with
    | user_created _ email hash hnone _ => exact absurd hnone (hp.actor a (by simp [hr]))
    | departed b _ y hq _ _ _ _ hb =>
        -- The departure of the user's own actor.
        cases hb
        have hdeparts := (h.departure hq).departs
        rw [ha] at hdeparts
        cases hdeparts

end Commits

/-- The rules of all calls, over such states. -/
abbrev peopleRules : Txn.Rules (engine anyCall) :=
  rules anyCall false fun w => Peopled w.store

theorem peopleRules_sound : peopleRules.Sound where
  keeps q L o w hv hg := by
    cases o with
    | committed ws reply => exact hg.2.1.peopled hv
    | failed | aborted => exact hv
  aborts _ _ _ _ := trivial
  bodies q w _ _ := bodies q rfl fun _ _ _ hv => hv.toConsistent.toLeavable

variable {L L' : Held} {w w' : World} {a : ActorId}

/-- The row of a user that has not departed is the row that was read, at whatever time. By
induction over the endings in between; departures are for good, so nobody departs and is back. -/
theorem user_kept {r : UserRow} (hr : w.store.user a = some r) (hl : peopleRules.Later L w w')
    (ha : w'.store.departed a = false) : w'.store.user a = some r := by
  refine Txn.Rules.Later.preserves (R := peopleRules)
    (P := fun v : World => v.store.departed a = false → v.store.user a = some r) ?_ hl
    (fun _ => hr) ha
  intro q K o v ih hg _ hv hafter
  cases o with
  | committed ws reply =>
      refine hg.2.1.user_stays hv (ih ?_) hafter
      rw [Bool.eq_false_iff]
      intro hdeparted
      have hstays := hg.2.1.stays_departed hv.toConsistent hdeparted
      rw [show (view ws v.store).departed a = false from hafter] at hstays
      cases hstays
  | failed | aborted => exact ih hafter

/-- Who departs between two moments has a departure on record between them. This is how the answer
`InvalidCredentials` after a good password is traced to somebody's call. -/
theorem departure_recorded (ha : w.store.departed a = false) (hl : peopleRules.Later L w w')
    (ha' : w'.store.departed a = true) :
    ∃ k e, w.history.length ≤ k ∧ w'.history[k]? = some e ∧ e.call.call = .leave_service a
      ∧ ∃ ws reply, e.outcome = .committed ws reply := by
  have hlength : ∀ {u v : World}, peopleRules.Later L u v → u.history.length ≤ v.history.length :=
    fun h => h.history.length_le
  suffices h : w.history.length ≤ w'.history.length ∧ (w'.store.departed a = true →
      ∃ k e, w.history.length ≤ k ∧ w'.history[k]? = some e ∧ DepartureOf a e) by
    exact h.2 ha'
  refine Txn.Rules.Later.preserves (R := peopleRules)
    (P := fun v : World => w.history.length ≤ v.history.length ∧ (v.store.departed a = true →
      ∃ k e, w.history.length ≤ k ∧ v.history[k]? = some e ∧ DepartureOf a e)) ?_ hl
    ⟨le_refl _, fun h => by rw [ha] at h; cases h⟩
  rintro q K o v ⟨hle, ih⟩ hg - hv
  -- Who had departed before did so by an entry that is still there.
  have hold : v.store.departed a = true → ∃ k e, w.history.length ≤ k
      ∧ (v.history ++ [Txn.Entry.mk q K o v.store])[k]? = some e ∧ DepartureOf a e := by
    intro h
    obtain ⟨k, e, hk, he, hdeparture⟩ := ih h
    exact ⟨k, e, hk, by rw [List.getElem?_append_left (List.getElem?_eq_some_iff.mp he).1, he],
      hdeparture⟩
  refine ⟨by simp [Txn.Engine.finish]; omega, fun hafter => ?_⟩
  cases o with
  | committed ws reply =>
      rcases hg.2.1.departs hafter with h | hq
      · exact hold h
      · exact ⟨v.history.length, _, hle, List.getElem?_concat_length, hq, ws, reply, rfl⟩
  | failed | aborted => exact hold hafter

/-! ## Two statements -/

section Statements

variable {allowed : Call → Bool} {guarded : Bool} {V : World → Prop} {ws : List Write}
variable {F : Held → SqlError → World → Prop}

/-- `lock_actor` by the actor itself: the row is there and visible, so it is locked and read. For
others the row might be hidden, and the answer none. -/
theorem wp_lock_self {Q : Held → List Write → Option Bool → World → Prop} {s : Settings}
    (hs : s.actor_id = some a) (hactor : w.store.actor a ≠ none)
    (hQ : ∀ L' w' r, L ⊆ L' → (rules allowed guarded V).Later L w w' → V w' →
      L'.row (.actor a) .share → w'.store.actor a = some r → Q L' [] (some r.deleted_at.isSome) w') :
    (rules allowed guarded V).wp Q F (lock_actor s a a) L [] w := by
  intro w₁ hl₁ hv₁
  obtain ⟨r, hr⟩ := Option.ne_none_iff_exists'.mp hactor
  obtain ⟨r₁, hr₁, -, -⟩ := persists (k := .actor a) (.inl rfl) hr hl₁
  have hseen : actors_select s w₁.store a = true := by simp [actors_select, hs]
  have hlockable : actors_update s w₁.store a = true := by simp [actors_update, hs]
  have hids : ([a, a].dedup.insertionSort (· ≤ ·)).filter (fun x =>
      (w₁.store.actor x).isSome && actors_select s w₁.store x && actors_update s w₁.store x) = [a] := by
    simp [hr₁, hseen, hlockable]
  change (rules allowed guarded V).wp Q F
    (lock_rows Key.actor .share _ (([a, a].dedup.insertionSort (· ≤ ·)).filter fun x =>
      (w₁.store.actor x).isSome && actors_select s w₁.store x && actors_update s w₁.store x)
      >>= _) L [] w₁
  rw [hids]
  -- The lock may have been waited for; what is read is the row as it is then.
  intro w₂ hl₂ hv₂
  obtain ⟨r₂, hr₂, -, -⟩ := persists (k := .actor a) (.inl rfl) hr₁ hl₂
  have hdeparted : w₂.store.departed a = r₂.deleted_at.isSome := by simp [Database.departed, hr₂]
  have hread : ([(a, w₂.store.departed a)].find? fun row => row.1 = a).map Prod.snd
      = some r₂.deleted_at.isSome := by
    simp [hdeparted]
  change Q _ [] (([(a, w₂.store.departed a)].find? fun row => row.1 = a).map Prod.snd) w₂
  rw [hread]
  exact hQ _ w₂ r₂ (List.subset_cons_self _ _) (hl₁.trans hl₂) hv₂ List.mem_cons_self hr₂

variable {k : Key} {r : Row k} {pkey : String} {admits : Database → Except SqlError Unit}
variable {indexes : List UniqueIndex} {references : List Reference}

/-- The entries in the unique indexes: one of them is taken, or the row enters them all. The error
is followed here, since a sign-in promises what its errors mean. -/
theorem wp_enter_unless_taken {Q : Held → List Write → Unit → World → Prop} (hv : V w)
    (hindex : ∀ index ∈ indexes, ∀ L' w', L ⊆ L' → (rules allowed guarded V).Later L w w' → V w' →
      index.taken (view ws w'.store) = true → F L' (.unique index.constraint) w')
    (hQ : ∀ L' w', L ⊆ L' → (rules allowed guarded V).Later L w w' → V w' → Q L' ws () w') :
    (rules allowed guarded V).wp Q F (indexes.forM enter_index) L ws w := by
  refine Txn.Rules.wp_mono (Txn.Rules.wp_forM (fun _ (L' : Held) ws' w' => ws' = ws ∧ L ⊆ L'
      ∧ (rules allowed guarded V).Later L w w' ∧ V w')
    ⟨rfl, List.Subset.refl _, .refl, hv⟩ ?_) ?_ (fun _ _ _ h => h)
  · rintro done index rest hxs L₁ ws₁ w₁ ⟨rfl, hL₁, hl₁, -⟩ w₂ hl₂ hv₂
    have hmem : index ∈ indexes := by simp [hxs]
    have hlater : (rules allowed guarded V).Later L w w₂ := hl₁.trans (hl₂.mono hL₁)
    have hL₂ : L ⊆ (Resource.unique index.entry, LockMode.update) :: L₁ :=
      List.Subset.trans hL₁ (List.subset_cons_self _ _)
    change (rules allowed guarded V).wp _ F (ensure (!index.taken (view ws₁ w₂.store)) _) _ ws₁ w₂
    refine wp_ensure (fun _ => ⟨rfl, hL₂, hlater, hv₂⟩) fun hfull => ?_
    rw [Bool.not_eq_false'] at hfull
    exact hindex index hmem _ w₂ hL₂ hlater hv₂ hfull
  · rintro L' ws' - w' ⟨rfl, hL', hl', hv'⟩
    exact hQ L' w' hL' hl' hv'

/-- Foreign keys that hold at every later world cannot fail, whenever they are checked. -/
theorem wp_references_hold {Q : Held → List Write → Unit → World → Prop} (hv : V w)
    (hrefs : ∀ ref ∈ references, ∀ w', (rules allowed guarded V).Later L w w' → V w' →
      ((view ws w'.store).rows.get ref.key).any ref.accepts = true)
    (hQ : ∀ L' w', L ⊆ L' → (rules allowed guarded V).Later L w w' → V w' → Q L' ws () w') :
    (rules allowed guarded V).wp Q F (references.forM check_reference) L ws w := by
  refine Txn.Rules.wp_mono (Txn.Rules.wp_forM (fun _ (L' : Held) ws' w' => ws' = ws ∧ L ⊆ L'
      ∧ (rules allowed guarded V).Later L w w' ∧ V w')
    ⟨rfl, List.Subset.refl _, .refl, hv⟩ ?_) ?_ (fun _ _ _ h => h)
  · rintro done ref rest hxs L₁ ws₁ w₁ ⟨rfl, hL₁, hl₁, -⟩ w₂ hl₂ hv₂
    have hmem : ref ∈ references := by simp [hxs]
    have hl : (rules allowed guarded V).Later L w w₂ := hl₁.trans (hl₂.mono hL₁)
    change (rules allowed guarded V).wp _ F
      (ensure (((view ws₁ w₂.store).rows.get ref.key).any ref.accepts) _ >>= _) L₁ _ w₂
    rw [hrefs ref hmem w₂ hl hv₂]
    intro w₃ hl₃ hv₃
    have hl' : (rules allowed guarded V).Later L w w₃ := hl.trans (hl₃.mono hL₁)
    change (rules allowed guarded V).wp _ F
      (ensure (((view ws₁ w₃.store).rows.get ref.key).any ref.accepts) _) _ _ w₃
    rw [hrefs ref hmem w₃ hl' hv₃]
    exact ⟨rfl, List.Subset.trans hL₁ (List.subset_cons_self _ _), hl', hv₃⟩
  · rintro L' ws' - w' ⟨rfl, hL', hl', hv'⟩
    exact hQ L' w' hL' hl' hv'

/-- An `INSERT` that is admitted and finds what it references: it fails on a row with the same
primary key or the same unique entry, and otherwise the row is in. No other error is left. -/
theorem wp_insert_unless_taken {Q : Held → List Write → Unit → World → Prop}
    (hadmits : ∀ db, admits db = .ok ()) (hk : ∀ x, Write.put k x ∉ ws)
    (hrefs : ∀ ref ∈ references, ∀ w', (rules allowed guarded V).Later L w w' → V w' →
      ((view (ws ++ [.put k (some r)]) w'.store).rows.get ref.key).any ref.accepts = true)
    (hpkey : ∀ L' w', L ⊆ L' → (rules allowed guarded V).Later L w w' → V w' →
      w'.store.rows.get k ≠ none → F L' (.unique pkey) w')
    (hindex : ∀ index ∈ indexes, ∀ L' w', L ⊆ L' → (rules allowed guarded V).Later L w w' → V w' →
      index.taken (view ws w'.store) = true → F L' (.unique index.constraint) w')
    (hdone : ∀ L' w', L ⊆ L' → (rules allowed guarded V).Later L w w' → V w' →
      L'.row k .update → w'.store.rows.get k = none → Q L' (ws ++ [.put k (some r)]) () w') :
    (rules allowed guarded V).wp Q F (insert k r pkey admits indexes references) L ws w := by
  intro w₁ hl₁ hv₁
  change (rules allowed guarded V).wp Q F
    (insert_row _ k r admits indexes references >>= fun b => ensure b (.unique pkey)) L ws w₁
  rw [Txn.Rules.wp_bind, insert_row, hadmits]
  intro w₂ hl₂ hv₂
  have hl : (rules allowed guarded V).Later L w w₂ := hl₁.trans hl₂
  have hL₂ : L ⊆ (Resource.row k, LockMode.update) :: L := List.subset_cons_self _ _
  change (rules allowed guarded V).wp _ F
    (if ((view ws w₂.store).rows.get k).isSome then pure false else
      indexes.forM enter_index >>= fun _ => emit (.put k (some r)) >>= fun _ =>
        references.forM check_reference >>= fun _ => pure true) _ ws w₂
  rw [view_get_of_untouched hk]
  by_cases htaken : (w₂.store.rows.get k).isSome = true
  · rw [if_pos htaken]
    exact hpkey _ w₂ hL₂ hl hv₂ (Option.isSome_iff_ne_none.mp htaken)
  · -- From here on the lock on the row keeps it free.
    rw [if_neg htaken, Txn.Rules.wp_bind]
    refine wp_enter_unless_taken hv₂ ?_ ?_
    · intro index hmem L₃ w₃ hL₃ hl₃ hv₃ hfull
      exact hindex index hmem L₃ w₃ (List.Subset.trans hL₂ hL₃) (hl.trans (hl₃.mono hL₂)) hv₃ hfull
    intro L₃ w₃ hL₃ hl₃ hv₃
    change (rules allowed guarded V).wp _ F (references.forM check_reference >>= _) L₃ _ w₃
    rw [Txn.Rules.wp_bind]
    have hlater : ∀ w', (rules allowed guarded V).Later L₃ w₃ w' →
        (rules allowed guarded V).Later L w w' := fun w' h =>
      hl.trans ((hl₃.mono hL₂).trans (h.mono (List.Subset.trans hL₂ hL₃)))
    refine wp_references_hold hv₃ (fun ref hmem w' hl' hv' => hrefs ref hmem w' (hlater w' hl') hv') ?_
    intro L₄ w₄ hL₄ hl₄ hv₄
    have hrow : Held.row L₃ k .update := hL₃ List.mem_cons_self
    refine hdone L₄ w₄ (List.Subset.trans hL₂ (List.Subset.trans hL₃ hL₄)) (hlater w₄ hl₄) hv₄
      (hL₄ hrow) ?_
    rw [frozen_row hrow (by decide) hl₄,
      frozen_row (m := .update) List.mem_cons_self (by decide) hl₃]
    rw [Option.not_isSome_iff_eq_none] at htaken
    exact htaken

end Statements

/-! ## How a sign-in ends -/

section Endings

variable (w : World) (n : ℕ) (email : Text) (verify : Text → Bool) (L : Held)

/-- The row of the user `a`, whom the email names ignoring ASCII case, in the `i`-th committed
state. It is one of those since the call began, when `n` calls had ended. -/
structure Found (i : ℕ) (a : ActorId) (r : UserRow) : Prop where
  since : n ≤ i
  read : ∃ db, w.states[i]? = some db ∧ db.user a = some r
  email : lower r.email = lower email

/-- The verifier accepts that row, and the call holds the lock on the actor: from then on no
departure of `a` commits before the call has ended. -/
structure Accepted (i : ℕ) (a : ActorId) (r : UserRow) : Prop extends Found w n email i a r where
  verified : verify r.password_hash = true
  locked : L.row (.actor a) .share

/-- From the `i`-th committed state on, one had a session with this id or this token. -/
structure Taken (i : ℕ) (id : SessionId) (hash : TokenHash) (name : String) : Prop where
  seen : ∃ k db, i ≤ k ∧ w.states[k]? = some db
    ∧ (name = "sessions_pkey" ∧ db.session id ≠ none
      ∨ name = "sessions_token_hash_key" ∧ ∃ j r, db.session j = some r ∧ r.token_hash = hash)

/-- **The endings of a sign-in** that began when `n` calls had ended, in the world `w`, with the
locks `L`: what it answers, what it asked in which order, and what it writes. -/
inductive Decided (token : Option (Text × TokenHash)) (expires_at : Instant) (id : SessionId) :
    Txn.Outcome Write (Reply × List Asked) → Prop
  | unknown (i : ℕ) (db : Database) : n ≤ i → w.states[i]? = some db →
      (∀ a r, db.user a = some r → lower r.email ≠ lower email) →
      Decided token expires_at id
        (.failed (.sign_in (.error .invalidCredentials), [.verify DUMMY_PASSWORD_HASH]))
  | refused (i : ℕ) (a : ActorId) (r : UserRow) : Found w n email i a r →
      verify r.password_hash = false →
      Decided token expires_at id
        (.failed (.sign_in (.error .invalidCredentials), [.verify r.password_hash]))
  | departed (i : ℕ) (a : ActorId) (r : UserRow) (k : ℕ) (e : Entry) :
      Accepted w n email verify L i a r → i ≤ k → w.history[k]? = some e → DepartureOf a e →
      Decided token expires_at id
        (.failed (.sign_in (.error .invalidCredentials), [.verify r.password_hash]))
  | no_token (i : ℕ) (a : ActorId) (r : UserRow) : Accepted w n email verify L i a r →
      w.store.present a → token = none →
      Decided token expires_at id
        (.failed (.sign_in (.error .tokenUnavailable), [.verify r.password_hash, .new_token]))
  | taken (i : ℕ) (a : ActorId) (r : UserRow) (t : Text) (hash : TokenHash) (name : String) :
      Accepted w n email verify L i a r → w.store.present a → token = some (t, hash) →
      Taken w i id hash name →
      Decided token expires_at id (.failed (.sign_in (.error (.database (.unique name))),
        [.verify r.password_hash, .new_token]))
  | signed_in (i : ℕ) (a : ActorId) (r : UserRow) (t : Text) (hash : TokenHash) :
      Accepted w n email verify L i a r → w.store.present a → token = some (t, hash) →
      w.store.session id = none →
      Decided token expires_at id
        (.committed [.put (.session id) (some ⟨a, hash, expires_at, none⟩)]
          (.sign_in (.ok (a, t)), [.verify r.password_hash, .new_token]))

end Endings

section Later

variable {n : ℕ} {email : Text} {verify : Text → Bool} {i : ℕ} {r : UserRow}

theorem getElem?_later {τ : Type} {xs ys : List τ} (h : xs <+: ys) {k : ℕ} {x : τ}
    (hx : xs[k]? = some x) : ys[k]? = some x := by
  obtain ⟨zs, rfl⟩ := h
  rw [List.getElem?_append_left (List.getElem?_eq_some_iff.mp hx).1]
  exact hx

/-- The state of a world is the last of its states: what is read now is one of those on record. -/
theorem states_self (w : World) : w.states[w.history.length]? = some w.store := by
  rw [Txn.World.states, List.getElem?_append_right (by rw [List.length_map])]
  simp

/-- What was found stays found: it speaks of a state on record. -/
theorem Found.later (h : Found w n email i a r) (hl : peopleRules.Later L w w') :
    Found w' n email i a r where
  since := h.since
  read := by
    obtain ⟨db, hdb, hr⟩ := h.read
    exact ⟨db, getElem?_later hl.states hdb, hr⟩
  email := h.email

/-- And so does an acceptance, with the lock that stands behind it. -/
theorem Accepted.later (h : Accepted w n email verify L i a r) (hl : peopleRules.Later L w w') :
    Accepted w' n email verify L i a r where
  toFound := h.toFound.later hl
  verified := h.verified
  locked := h.locked

theorem Accepted.mono (h : Accepted w n email verify L i a r) (hL : L ⊆ L') :
    Accepted w n email verify L' i a r where
  toFound := h.toFound
  verified := h.verified
  locked := hL h.locked

/-- Who was present when its row was locked is present for as long as the lock is held: a departure
locks the row `FOR UPDATE`. -/
theorem present_later (hrow : L.row (.actor a) .share) (ha : w.store.present a)
    (hl : peopleRules.Later L w w') : w'.store.present a := by
  obtain ⟨x, hx, hdel⟩ := ha
  exact ⟨x, (frozen_row (k := .actor a) hrow (by decide) hl).trans hx, hdel⟩

end Later

/-! ## The walk -/

section Walk

variable {tx : Transaction} {n : ℕ} {email : Text} {verify : Text → Bool}
variable {token : Option (Text × TokenHash)} {expires_at : Instant} {id : SessionId}

theorem users_select_email {r : UserRow} :
    users_select (begin tx (.signInEmail email)) a r = true ↔ lower r.email = lower email := by
  simp [users_select, begin, set_context]

/-- The row that the statement returns. The policy shows the one row whose email is the one in the
context, so the query cannot return another. -/
theorem user_by_email_some {db : Database} {phc : Text}
    (h : user_by_email (begin tx (.signInEmail email)) db email = some (a, phc)) :
    ∃ r, db.user a = some r ∧ lower r.email = lower email ∧ r.password_hash = phc := by
  obtain ⟨k, r, hr, hread⟩ := Txn.Store.mem_select.mp (List.mem_of_mem_head? h)
  cases k with
  | user b =>
      obtain ⟨⟨hemail, -⟩, heq⟩ := Option.ite_none_right_eq_some.mp hread
      cases heq
      exact ⟨r, hr, hemail, rfl⟩
  | _ => cases hread

/-- It returns none only when there is none: the policy hides no row with this email. -/
theorem user_by_email_none {db : Database}
    (h : user_by_email (begin tx (.signInEmail email)) db email = none) {r : UserRow}
    (hr : db.user a = some r) : lower r.email ≠ lower email := by
  intro hemail
  unfold user_by_email at h
  rw [List.head?_eq_none_iff, List.eq_nil_iff_forall_not_mem] at h
  refine h (a, r.password_hash) (Txn.Store.mem_select.mpr ⟨.user a, r, hr, ?_⟩)
  exact if_pos ⟨hemail, users_select_email.mpr hemail⟩

/-- What an error of the walk has to be: an ending, now and for as long as its locks last. -/
abbrev Failing (n : ℕ) (email : Text) (verify : Text → Bool) (token : Option (Text × TokenHash))
    (expires_at : Instant) (id : SessionId) (L : Held) (e : SignInError × List Asked)
    (w : World) : Prop :=
  peopleRules.Hence L (fun v => Decided v n email verify L token expires_at id
    (.failed (answer_asking (.error e)))) w

/-- What a result of the walk has to be. -/
abbrev Succeeding (n : ℕ) (email : Text) (verify : Text → Bool) (token : Option (Text × TokenHash))
    (expires_at : Instant) (id : SessionId) (L : Held) (ws : List Write)
    (x : (ActorId × Text) × List Asked) (w : World) : Prop :=
  peopleRules.Hence L (fun v => Decided v n email verify L token expires_at id
    (.committed ws (answer_asking (.ok x)))) w

/-- What has been asked does not change where a statement can end. -/
theorem wp_noting {α : Type} {Q : Held → List Write → α → World → Prop}
    {F : Held → SignInError × List Asked → World → Prop} {asked : List Asked} {p : Sql SqlError α}
    {ws : List Write} :
    peopleRules.wp Q F (noting asked p) L ws w ↔
      peopleRules.wp Q (fun L e w => F L (.database e, asked) w) p L ws w :=
  Txn.Rules.wp_mapError

/-- A session with the new token stands in the way of the insert. -/
theorem session_token_taken {db : Database} {hash : TokenHash}
    (h : (session_token_index hash).taken db = true) :
    ∃ j r, db.session j = some r ∧ r.token_hash = hash := by
  obtain ⟨k, r, j, hr, hread⟩ := Txn.Store.select_nonempty_iff.mp h
  cases k with
  | session i => exact ⟨i, r, hr, (Option.ite_none_right_eq_some.mp hread).1⟩
  | _ => cases hread

/-- The end of the walk: the insert, by an actor that is locked and present. Its foreign key finds
the user, for whoever is present keeps its row, so only the id or the token can be taken. -/
theorem wp_insert_session {i : ℕ} {r : UserRow} {t : Text} {hash : TokenHash}
    {s : Settings} (hs : s.actor_id = some a) (haccepted : Accepted w n email verify L i a r)
    (hpresent : w.store.present a) (huser : w.store.user a = some r) (hi : i ≤ w.history.length) :
    peopleRules.wp (Succeeding n email verify (some (t, hash)) expires_at id)
      (Failing n email verify (some (t, hash)) expires_at id)
      (do
        noting [.verify r.password_hash, .new_token]
          (insert (.session id) ⟨a, hash, expires_at, none⟩ "sessions_pkey"
            (fun _ => admit_if (sessions_insert s ⟨a, hash, expires_at, none⟩) .insufficientPrivilege)
            [session_token_index hash] [⟨.user a, fun _ => true⟩])
        return ((a, t), [.verify r.password_hash, .new_token])) L [] w := by
  rw [Txn.Rules.wp_bind, wp_noting]
  -- Whichever of the two is taken, the call ends in `taken`, with the state that shows it.
  have htaken : ∀ {L' : Held} {w' v : World} {name}, L ⊆ L' → peopleRules.Later L w w' →
      peopleRules.Later L' w' v →
      (name = "sessions_pkey" ∧ w'.store.session id ≠ none ∨ name = "sessions_token_hash_key"
        ∧ ∃ j x, w'.store.session j = some x ∧ x.token_hash = hash) →
      Decided v n email verify L' (some (t, hash)) expires_at id
        (.failed (answer_asking (.error (.database (.unique name),
          [.verify r.password_hash, .new_token])))) := by
    intro L' w' v name hL hl hl' hname
    have hlater := hl.trans (hl'.mono hL)
    have hle : w.history.length ≤ w'.history.length := hl.history.length_le
    refine .taken i a r t hash name ((haccepted.later hlater).mono hL)
      (present_later haccepted.locked hpresent hlater) rfl
      ⟨w'.history.length, w'.store, by omega, ?_, hname⟩
    exact getElem?_later hl'.states (states_self w')
  refine wp_insert_unless_taken ?_ (by simp) ?_ ?_ ?_ ?_
  · intro db
    simp [admit_if, sessions_insert, hs]
  · -- The foreign key: under the lock the actor stays present, and so does its user.
    intro ref hmem w' hl hv
    cases List.mem_singleton.mp hmem
    have hnot := (present_later haccepted.locked hpresent hl).not_departed
    have hkept : w'.store.user a = some r := user_kept huser hl hnot
    rw [List.nil_append, view_get_of_untouched (by simp)]
    simp [hkept]
  · intro L' w' hL hl _ hsome v hl' _
    exact htaken hL hl hl' (.inl ⟨rfl, hsome⟩)
  · intro index hmem L' w' hL hl _ hfull v hl' _
    cases List.mem_singleton.mp hmem
    exact htaken hL hl hl' (.inr ⟨rfl, session_token_taken hfull⟩)
  · intro L' w' hL hl _ hrow hnone v hl' _
    have hlater := hl.trans (hl'.mono hL)
    have hfree : v.store.session id = none :=
      (frozen_row (k := .session id) hrow (by decide) hl').trans hnone
    exact .signed_in i a r t hash ((haccepted.later hlater).mono hL)
      (present_later haccepted.locked hpresent hlater) rfl hfree

/-- **`sign_in` decides.** The walk follows the text: whoever is read first is read at a state
since the call began, and each way out of the text is one ending of `Decided`. -/
theorem wp_sign_in_asking (hstorable : storable email = true) (hn : n ≤ w.history.length) :
    peopleRules.wp (Succeeding n email verify token expires_at id)
      (Failing n email verify token expires_at id)
      (sign_in_asking tx email verify (fun _ => token) expires_at id) L [] w := by
  unfold sign_in_asking
  rw [hstorable]
  change peopleRules.wp _ _ (noting [] (select _) >>= _) L [] w
  rw [Txn.Rules.wp_bind, wp_noting, wp_select]
  intro w₁ hl₁ hv₁
  rw [view_nil]
  -- Whatever it reads, it reads in a state committed since it began.
  have hsince : n ≤ w₁.history.length := hn.trans hl₁.history.length_le
  cases hperson : user_by_email (begin tx (.signInEmail email)) w₁.store email with
  | none =>
      -- The dummy is verified, and whatever the verifier says is dropped.
      intro v hl _
      exact .unknown w₁.history.length w₁.store hsince (getElem?_later hl.states (states_self w₁))
        fun a r hr => user_by_email_none hperson hr
  | some person =>
      obtain ⟨a, phc⟩ := person
      obtain ⟨r, hr, hemail, rfl⟩ := user_by_email_some hperson
      have hfound : Found w₁ n email w₁.history.length a r :=
        ⟨hsince, ⟨w₁.store, states_self w₁, hr⟩, hemail⟩
      dsimp only [Option.elim, Option.filter_some]
      by_cases hverified : verify r.password_hash = true
      · rw [if_pos hverified]
        change peopleRules.wp _ _ (noting _ (lock_actor _ a a) >>= _) L [] w₁
        rw [Txn.Rules.wp_bind, wp_noting]
        have hself : (set_context (begin tx (.signInEmail email)) (.actor a)).actor_id = some a := rfl
        refine wp_lock_self hself (hv₁.actor a (by simp [hr])) ?_
        intro L₂ w₂ x hL₂ hl₂ hv₂ hrow hx
        have haccepted : Accepted w₂ n email verify L₂ w₁.history.length a r :=
          ⟨hfound.later hl₂, hverified, hrow⟩
        cases hdel : x.deleted_at with
        | some at_ =>
            -- The actor has departed since its `users` row was read.
            intro v hl _
            have hbefore : w₁.store.departed a = false := by
              rw [Bool.eq_false_iff]
              intro hdeparted
              rw [hv₁.noUser a hdeparted] at hr
              cases hr
            have hafter : w₂.store.departed a = true := by
              rw [Database.departed_iff]
              exact ⟨x, hx, by simp [hdel]⟩
            obtain ⟨k, e, hk, he, hdeparture⟩ := departure_recorded hbefore hl₂ hafter
            exact .departed w₁.history.length a r k e (haccepted.later hl) hk
              (getElem?_later hl.history he) hdeparture
        | none =>
            have hpresent : w₂.store.present a := ⟨x, hx, hdel⟩
            change peopleRules.wp _ _ (noting _ (select _) >>= _) L₂ [] w₂
            rw [Txn.Rules.wp_bind, wp_noting, wp_select]
            intro w₃ hl₃ hv₃
            have hpresent₃ : w₃.store.present a := present_later hrow hpresent hl₃
            have hlater₃ : peopleRules.Later L w₁ w₃ := hl₂.trans (hl₃.mono hL₂)
            have huser₃ : w₃.store.user a = some r := user_kept hr hlater₃ hpresent₃.not_departed
            have hstill : ((view [] w₃.store).user a).any (fun y =>
                users_select (set_context (begin tx (.signInEmail email)) (.actor a)) a y) = true := by
              simp [huser₃, users_select, set_context]
            have hi : w₁.history.length ≤ w₃.history.length := hlater₃.history.length_le
            rw [hstill]
            cases token with
            | none =>
                intro v hl _
                exact .no_token w₁.history.length a r (haccepted.later (hl₃.trans hl))
                  (present_later hrow hpresent₃ hl) rfl
            | some issued =>
                obtain ⟨t, hash⟩ := issued
                exact wp_insert_session hself (haccepted.later hl₃) hpresent₃ huser₃ hi
      · rw [if_neg hverified]
        intro v hl _
        exact .refused w₁.history.length a r (hfound.later hl) (Bool.eq_false_iff.mpr hverified)

end Walk

/-! ## Whole runs -/

/-- What is promised about a sign-in that is not aborted, beside what all calls promise. -/
def Promised (q : Begun) (L : Held) (o : Txn.Outcome Write (Reply × List Asked)) (w : World) :
    Prop :=
  ∀ email verify token expires_at id, q.call = .sign_in email verify token expires_at id →
    storable email = true → o ≠ .aborted → Decided w q.since email verify L token expires_at id o

abbrev askingRules : Txn.Rules asking :=
  peopleRules.carrying Prod.fst Begun.toRequest (fun c => c.body_asking) Begun.now Promised

/-- These rules are sound: only sign-ins promise more than all calls do, and the walk above is
theirs. -/
theorem askingRules_sound : askingRules.Sound := by
  refine peopleRules_sound.carrying (fun c => body_asking_forget c.toRequest) ?_ ?_
  · intro q L w email verify token expires_at id _ _ hnot
    exact absurd rfl hnot
  · rintro ⟨⟨c, tx⟩, n⟩ w - hnow
    -- The mark is the number of calls that had ended when this one began.
    have hbegan : n ≤ (Txn.World.map Prod.fst Begun.toRequest w).history.length := by
      rw [Txn.World.map_history, List.length_map]
      exact (of_decide_eq_true hnow).le
    have hsilent : (∀ email verify token expires_at id,
        c ≠ .sign_in email verify token expires_at id) → ∀ L o w, Promised ⟨⟨c, tx⟩, n⟩ L o w :=
      fun hc L o w email verify token expires_at id hq => absurd hq (hc _ _ _ _ _)
    cases c with
    | sign_in email verify token expires_at id =>
        by_cases hstorable : storable email = true
        · change peopleRules.wp _ _ ((sign_in_asking tx email verify (fun _ => token) expires_at
            id).answer answer_asking) _ [] _
          rw [Txn.Rules.wp_answer]
          refine Txn.Rules.wp_mono (wp_sign_in_asking hstorable hbegan) ?_ ?_
          · intro L ws x u h
            refine h.imp ?_
            rintro v - hdecided _ _ _ _ _ ⟨⟩ - -
            exact hdecided
          · intro L e u h
            refine h.imp ?_
            rintro v - hdecided _ _ _ _ _ ⟨⟩ - -
            exact hdecided
        · -- Refused before anything is asked; nothing is promised of it.
          refine Txn.Rules.wp_always ?_ ?_
          · rintro L ws x u v - - _ _ _ _ _ ⟨⟩ hyes
            exact absurd hyes hstorable
          · rintro L e u v - - _ _ _ _ _ ⟨⟩ hyes
            exact absurd hyes hstorable
    | _ =>
        refine Txn.Rules.wp_always ?_ ?_
        · exact fun L ws x u v _ _ => hsilent (by simp) L _ v
        · exact fun L e u v _ _ => hsilent (by simp) L _ v

/-- A call that begins can be marked, whenever it does: the mark is a number that is known then. -/
theorem exists_begun
    (w : Txn.World Database Write Resource LockMode Begun (Reply × List Asked)) (c : Request) :
    ∃ c' : Begun, c'.toRequest = c ∧ Begun.now w c' = true :=
  ⟨⟨c, w.history.length⟩, rfl, decide_eq_true rfl⟩

/-- Nothing has happened yet, and nothing was asked. -/
def AskingWorld.empty : Txn.World Database Write Resource LockMode Begun (Reply × List Asked) :=
  ⟨Database.empty, []⟩

/-- The runs of `asking` are the runs of all calls, with the questions beside the replies: every
call can be marked when it begins. -/
theorem asking_runs {u : System} : (engine anyCall).Reachable World.empty u ↔
    ∃ s, asking.Reachable AskingWorld.empty s ∧ s.map Prod.fst Begun.toRequest = u :=
  Txn.Engine.reachable_iff (fun c : Begun => body_asking_forget c.toRequest) exists_begun
    (w := AskingWorld.empty)

/-- A sign-in that has ended was decided in the world it ended in. The promise was made at its last
step, and an ending is exactly what the promise is about. -/
theorem sign_in_decided {s : Txn.System Database Write Resource LockMode Begun
    (Reply × List Asked)} (h : asking.Reachable AskingWorld.empty s)
    {pre post : List (Txn.Entry Database Write Resource LockMode Begun (Reply × List Asked))}
    {e : Txn.Entry Database Write Resource LockMode Begun (Reply × List Asked)}
    (hs : s.world.history = pre ++ e :: post) {email : Text} {verify : Text → Bool}
    {token : Option (Text × TokenHash)} {expires_at : Instant} {id : SessionId}
    (hcall : e.call.call = .sign_in email verify token expires_at id)
    (hstorable : storable email = true) (hend : e.outcome ≠ .aborted) :
    Decided (Txn.World.map Prod.fst Begun.toRequest ⟨e.before, pre⟩) e.call.since email verify e.held
      token expires_at id e.outcome := by
  have hv : askingRules.valid AskingWorld.empty := Peopled.empty
  have hclear : ∀ u, askingRules.Clear u :=
    Txn.Rules.clear_of_presumes fun c =>
      presumes_nothing (V := fun w => Peopled w.store) c.toRequest
  obtain ⟨v, -, rfl, hbefore, -, hg, -⟩ :=
    (askingRules_sound.reachable hv (Txn.Engine.Reachable.within asking hclear h)).2.at_entry hs
      (Nat.zero_le _)
  have hpromised := hg.2 email verify token expires_at id hcall hstorable hend
  rw [← hbefore]
  exact hpromised

/-- **A sign-in decides once**, at every interleaving with any other calls. Whatever calls
ended before it, it ends in one of the ways that `Decided` lists: the verifier is asked once,
about the stored hash or the dummy; the token source at most once, after an acceptance; and
only an acceptance of someone who is still there opens a session, one. No committed state has a
session of someone who has departed. -/
theorem sign_in_decides {s : Txn.System Database Write Resource LockMode Begun
    (Reply × List Asked)} (h : asking.Reachable AskingWorld.empty s) :
    (∀ pre e post, s.world.history = pre ++ e :: post →
      ∀ email verify token expires_at id,
        e.call.call = .sign_in email verify token expires_at id → storable email = true →
        e.outcome ≠ .aborted →
        Decided (Txn.World.map Prod.fst Begun.toRequest ⟨e.before, pre⟩) e.call.since email verify
          e.held token expires_at id e.outcome)
    ∧ ∀ db ∈ s.world.states, ∀ i r, db.session i = some r → db.departed r.actor_id = false := by
  refine ⟨?_, ?_⟩
  · intro pre e post hs email verify token expires_at id hcall hstorable hend
    exact sign_in_decided h hs hcall hstorable hend
  · intro db hdb i r hr
    have hrun : (engine anyCall).Reachable World.empty (s.map Prod.fst Begun.toRequest) :=
      asking_runs.mpr ⟨s, h, rfl⟩
    rw [Bool.eq_false_iff]
    intro hdeparted
    have hc : Consistent db := by
      rw [← Txn.World.states_map Prod.fst Begun.toRequest s.world] at hdb
      rcases List.mem_append.mp hdb with hold | hlast
      · obtain ⟨e, he, rfl⟩ := List.mem_map.mp hold
        exact (reachable_commit hrun he).1
      · rw [List.mem_singleton.mp hlast]
        exact reachable_consistent hrun
    exact hc.noSession hdeparted hr rfl

/-- A departure that commits while the password is verified: the sign-in has read its `users`
row, `leave_service` runs to its end, and the sign-in goes on. -/
theorem sign_in_decides_racing : ∃ s, asking.Reachable AskingWorld.empty s
    ∧ ∃ pre e post, s.world.history = pre ++ e :: post
      ∧ e.outcome = .failed (.sign_in (.error .invalidCredentials), [.verify []])
      ∧ Decided (Txn.World.map Prod.fst Begun.toRequest ⟨e.before, pre⟩) 1 ['A'] (fun _ => true) e.held
          (some (['t'], first_key)) 100 ⟨50⟩ e.outcome := by
  have hrun : ((asking.serve 100 [⟨⟨.create_person ['a'] [] ['A'] ⟨1⟩, ⟨0, 1⟩⟩, 0⟩]
      (Txn.Engine.idle AskingWorld.empty)).bind fun s => asking.run s
        ([.start 1 ⟨⟨.sign_in ['A'] (fun _ => true) (some (['t'], first_key)) 100 ⟨50⟩, ⟨0, 2⟩⟩, 1⟩,
          .advance 1, .start 0 ⟨⟨.leave_service ⟨1⟩, ⟨0, 3⟩⟩, 1⟩] ++ List.replicate 13 (.advance 0)
          ++ List.replicate 3 (.advance 1))).bind
        (fun s => s.world.history[2]?.map fun e => (e.call, e.outcome))
      = some (⟨⟨.sign_in ['A'] (fun _ => true) (some (['t'], first_key)) 100 ⟨50⟩, ⟨0, 2⟩⟩, 1⟩,
          .failed (.sign_in (.error .invalidCredentials), [.verify []])) := rfl
  obtain ⟨s, hs, hentry⟩ := Option.bind_eq_some_iff.mp hrun
  obtain ⟨s₀, hserve, hmoves⟩ := Option.bind_eq_some_iff.mp hs
  obtain ⟨e, he, heq⟩ := Option.map_eq_some_iff.mp hentry
  obtain ⟨hcall, houtcome⟩ := Prod.mk.injEq _ _ _ _ ▸ heq
  have hfirst := (Txn.Engine.ReachableIn.of_serve (fun _ h => h) hserve).reachable
  have hreach : asking.Reachable AskingWorld.empty s := hfirst.trans (Txn.Engine.Steps.of_run _ hmoves)
  obtain ⟨pre, post, hsplit⟩ := List.append_of_mem (List.mem_of_getElem? he)
  have hdecided := (sign_in_decides hreach).1 pre e post hsplit ['A'] (fun _ => true)
    (some (['t'], first_key)) 100 ⟨50⟩ (by rw [hcall]) (by decide) (by rw [houtcome]; rintro ⟨⟩)
  rw [hcall] at hdecided
  exact ⟨s, hreach, pre, e, post, hsplit, houtcome, hdecided⟩

/-- **The token has to be new.** The second of two sign-ins whose token sources return the same
hash is neither refused nor let in. -/
theorem second_sign_in_with_one_token : ∃ s, asking.Reachable AskingWorld.empty s
    ∧ ∃ e ∈ s.world.history,
      e.call.call = .sign_in ['A'] (fun _ => true) (some (['u'], first_key)) 100 ⟨51⟩
      ∧ e.before.user ⟨1⟩ = some ⟨['a'], []⟩ ∧ e.before.actor ⟨1⟩ = some ⟨.human, some ['A'], none⟩
      ∧ e.outcome = .failed (.sign_in (.error (.database (.unique "sessions_token_hash_key"))),
          [.verify [], .new_token]) := by
  have hrun : (asking.serve 100 [⟨⟨.create_person ['a'] [] ['A'] ⟨1⟩, ⟨0, 1⟩⟩, 0⟩,
        ⟨⟨.sign_in ['A'] (fun _ => true) (some (['t'], first_key)) 100 ⟨50⟩, ⟨0, 2⟩⟩, 1⟩,
        ⟨⟨.sign_in ['A'] (fun _ => true) (some (['u'], first_key)) 100 ⟨51⟩, ⟨0, 3⟩⟩, 2⟩]
      (Txn.Engine.idle AskingWorld.empty)).bind (fun s => s.world.history[2]?.map fun e =>
        (e.call.call, e.before.user ⟨1⟩, e.before.actor ⟨1⟩, e.outcome))
      = some (.sign_in ['A'] (fun _ => true) (some (['u'], first_key)) 100 ⟨51⟩, some ⟨['a'], []⟩,
          some ⟨.human, some ['A'], none⟩,
          .failed (.sign_in (.error (.database (.unique "sessions_token_hash_key"))),
            [.verify [], .new_token])) := rfl
  obtain ⟨s, hserve, hentry⟩ := Option.bind_eq_some_iff.mp hrun
  obtain ⟨e, he, heq⟩ := Option.map_eq_some_iff.mp hentry
  simp only [Prod.mk.injEq] at heq
  obtain ⟨hcall, huser, hactor, houtcome⟩ := heq
  have hreach := (Txn.Engine.ReachableIn.of_serve (fun _ h => h) hserve).reachable
  exact ⟨s, hreach, e, List.mem_of_getElem? he, hcall, huser, hactor, houtcome⟩

end Fukulow
