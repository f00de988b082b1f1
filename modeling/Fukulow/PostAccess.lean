/-
Who posts, at the commit of the post.

`post_message` takes no lock on the sender's membership or on the organization before its
insert has been checked: the policy of the insert reads the statement's snapshot, and the
foreign keys wait afterwards, for the very locks a suspension or a departure holds. So the
check is a `Gate`: from the read that shows the sender active to the commit nothing keeps it
so, and `posted_after_suspension` is a run in which a message commits after its sender's
suspension has. In a run in which no suspension or departure of a sender commits while a
post of it has passed that check, every message is committed by an active member.
-/
import Fukulow.Consistency
import Fukulow.Txn.Gate

set_option autoImplicit false

namespace Fukulow

open Txn (Gate LockMode)

/-! ## Statements on their way through a gate -/

section Statements

variable {D : Gate Database Write Resource} {G H : Prop} {ε α : Type}

/-- The `?` operator plays no part at a gate. -/
theorem through_lift {Q : Prop → Prop → α → Prop} [FromSql ε] {p : Sql SqlError α} :
    D.Through Q (liftM p : Sql ε α) G H ↔ D.Through Q p G H :=
  Txn.Gate.through_mapError

theorem through_ensure {Q : Prop → Prop → Unit → Prop} {b : Bool} {e : ε} (h : Q G H ()) :
    D.Through Q (ensure b e : Sql ε Unit) G H := by
  unfold ensure
  split
  · exact h
  · trivial

theorem through_snapshot {Q : Prop → Prop → Database → Prop} :
    D.Through Q (snapshot : Sql ε Database) G H ↔ ∀ s, Q (D.good s) H s :=
  Iff.rfl

theorem through_lockRow {Q : Prop → Prop → Database → Prop} {k : Key} {m : LockMode} :
    D.Through Q (lockRow k m : Sql ε Database) G H ↔
      (D.passes (.row k) → H ∨ G) ∧ ∀ s, Q (D.good s) (H ∨ D.passes (.row k)) s :=
  Iff.rfl

theorem through_select {τ : Type} {Q : Prop → Prop → τ → Prop} {q : Database → τ} :
    D.Through Q (select q) G H ↔ ∀ s, Q (D.good s) H (q s) :=
  Iff.rfl

/-- An update of a row that is not behind the gate. Whether it has found its row is not known
afterwards, nor is the state good any more, for the call may have waited. -/
theorem through_update {k : Key} {visible : Database → Row k → Bool} {matches_ : Row k → Bool}
    {set : Database → Row k → Except SqlError (Row k)} {Q : Prop → Prop → Option (Row k) → Prop}
    (hk : ¬ D.passes (.row k)) (hsafe : ∀ r, D.safe (.put k r))
    (hQ : ∀ G H' x, Q G H' x) : D.Through Q (update k visible matches_ set) G H := by
  rw [update, Txn.Gate.through_bind, through_snapshot]
  intro s
  unfold update_row
  split
  · exact hQ _ _ _
  · split
    · rw [Txn.Gate.through_bind, through_lockRow]
      refine ⟨fun hp => absurd hp hk, fun s' => ?_⟩
      split
      · exact hQ _ _ _
      · split
        · split
          · trivial
          · exact ⟨hsafe _, hQ _ _ _⟩
        · exact hQ _ _ _
    · exact hQ _ _ _

/-- With a lock behind the gate in hand, a unique entry asks for nothing more. -/
theorem through_enter_index {index : UniqueIndex} {Q : Prop → Prop → Unit → Prop} (hH : H)
    (hQ : ∀ G H', H' → Q G H' ()) : D.Through Q (enter_index index) G H := by
  refine ⟨fun _ => .inl hH, fun s => ?_⟩
  change D.Through Q (ensure _ _) _ _
  exact through_ensure (hQ _ _ (.inl hH))

/-- Nor does a foreign key. -/
theorem through_check_reference {ref : Reference} {Q : Prop → Prop → Unit → Prop} (hH : H)
    (hQ : ∀ G H', H' → Q G H' ()) : D.Through Q (check_reference ref) G H := by
  intro s
  change D.Through Q (ensure _ _ >>= fun _ => _) _ _
  rw [Txn.Gate.through_bind]
  refine through_ensure ?_
  refine ⟨fun _ => .inl hH, fun s' => ?_⟩
  change D.Through Q (ensure _ _) _ _
  exact through_ensure (hQ _ _ (.inl hH))

theorem through_forM {τ : Type} {f : τ → Sql SqlError Unit} {xs : List τ}
    {Q : Prop → Prop → Unit → Prop} (hH : H) (hQ : ∀ G H', H' → Q G H' ())
    (hf : ∀ x G H (Q : Prop → Prop → Unit → Prop), H → (∀ G H', H' → Q G H' ()) →
      D.Through Q (f x) G H) :
    D.Through Q (xs.forM f) G H := by
  induction xs generalizing G H with
  | nil => exact hQ _ _ hH
  | cons x xs ih =>
      change D.Through Q (f x >>= fun _ => xs.forM f) G H
      rw [Txn.Gate.through_bind]
      exact hf x G H _ hH fun G' H' hH' => ih hH'

/-- An insert behind the gate: what admits the row saw a good state, and the lock on the row comes
right after that. What comes later is behind the gate already. -/
theorem through_insert_or_nothing {k : Key} {r : Row k} {admits : Database → Except SqlError Unit}
    {indexes : List UniqueIndex} {references : List Reference} {Q : Prop → Prop → Bool → Prop}
    (hk : D.passes (.row k)) (hsafe : D.safe (.put k (some r)))
    (hadmits : ∀ db, admits db = .ok () → D.good db) (hQ : ∀ G H' b, H' → Q G H' b) :
    D.Through Q (insert_or_nothing k r admits indexes references) G H := by
  intro db
  change D.Through Q (insert_row db k r admits indexes references) _ _
  unfold insert_row
  split
  · trivial
  · rename_i hok
    refine ⟨fun _ => .inr (hadmits db hok), fun s' => ?_⟩
    have hH : H ∨ D.passes (.row k) := .inr hk
    change D.Through Q (if (s'.rows.get k).isSome then pure false else
      indexes.forM enter_index >>= fun _ => emit (.put k (some r)) >>= fun _ =>
        references.forM check_reference >>= fun _ => pure true) _ _
    split
    · exact hQ _ _ _ hH
    · rw [Txn.Gate.through_bind]
      refine through_forM hH ?_ fun index G H Q hH hQ => through_enter_index hH hQ
      intro G₁ H₁ hH₁
      refine ⟨hsafe, ?_⟩
      change D.Through Q (references.forM check_reference >>= _) _ _
      rw [Txn.Gate.through_bind]
      refine through_forM hH₁ ?_ fun ref G H Q hH hQ => through_check_reference hH hQ
      exact fun G₂ H₂ hH₂ => hQ _ _ _ hH₂

end Statements

/-! ## The gate of a post -/

/-- The policy of `messages`: the sender is active; behind it, the lock on the message. -/
def postGate (o : OrganizationId) (sender : ActorId) : Gate Database Write Resource where
  good db := db.active o sender = true
  passes r := ∃ id, r = .row (.message id)
  safe u := ∀ r, u ≠ .put (.member o sender) r

variable {o : OrganizationId} {c : ChannelId} {sender : ActorId} {id : MessageId} {body : Text}
variable {tx : Transaction}

/-- Only what has passed the gate is posted: of the answers of a post, `Posted` alone comes from
behind it. -/
theorem through_post_message :
    (postGate o sender).Through (fun _ H r => (∃ m, r = PostMessage.posted m) → H)
      (post_message tx o c sender id body) False False := by
  unfold post_message
  split
  · trivial
  · rw [Txn.Gate.through_bind, through_lift]
    refine through_update (by rintro ⟨_, h⟩; cases h) (by rintro r r' ⟨⟩) ?_
    intro G H counter
    split
    · trivial
    · rw [Txn.Gate.through_bind, through_lift]
      refine through_insert_or_nothing ⟨id, rfl⟩ (by rintro r ⟨⟩) ?_ ?_
      · -- The policy read the state in which it found the sender active.
        intro db hadm
        have hpolicy := (admitted_else (admitted_else hadm).2).1
        rw [Bool.and_eq_true] at hpolicy
        simpa [messages_insert, begin, set_context, postGate] using hpolicy.1
      · intro G₁ H₁ inserted hH₁
        split
        · rw [Txn.Gate.through_bind]
          unfold lift_message
          split
          · trivial
          · exact fun _ => hH₁
        · -- The second transaction never posts.
          change (postGate o sender).Through _ _ False False
          rw [Txn.Gate.through_bind, through_lift, through_select]
          intro db
          split
          · trivial
          · rw [Txn.Gate.through_bind]
            unfold lift_message
            split
            · trivial
            · rintro ⟨m, hm⟩
              cases hm

/-! ## All runs without such a race -/

/-- No suspension or departure is about to commit while a post of the one who loses access
has passed the policy of `messages`: it waits for the lock on its message's id, or holds it. -/
def PostsClear (s : System) : Prop :=
  ∀ t x b, s.tasks.get t = some x → x.prog = .pure b →
    ∀ t' y o c sender id body, t' ≠ t → s.tasks.get t' = some y →
      y.call.call = .post_message o c sender id body → x.call.call.ends_access o sender →
      ¬ (postGate o sender).Passed y

/-- An answer `Posted`. -/
def Reply.is_posted (r : Reply) : Prop := ∃ m, r = .post_message (.ok (.posted m))

/-- What is known of a post in flight. -/
def PostKept (x : Txn.Task Database Write Resource LockMode Request Reply) (v : World) : Prop :=
  ∀ o c sender id body, x.call.call = .post_message o c sender id body →
    (postGate o sender).Kept Reply.is_posted x v

/-- In runs without such a race every post in flight keeps what it has seen at the gate: its own
actions do, and the endings of others would have to be a suspension or a departure. -/
theorem posts_kept {s : System} (h : (engine anyCall).ReachableIn PostsClear World.empty s) :
    ∀ t x, s.tasks.get t = some x → PostKept x s.world := by
  refine Txn.Engine.ReachableIn.in_flight (J := PostKept) ?_ ?_ ?_ h
  · -- A post that starts has its program before it, and holds its own id only.
    rintro ⟨call, tx⟩ v o c sender id body rfl
    refine Txn.Gate.Kept.start ?_ ?_
    · change (postGate o sender).Through _ ((post_message tx o c sender id body).answer _) _ _
      rw [Txn.Gate.through_answer]
      refine Txn.Gate.through_mono through_post_message ?_
      rintro _ H r hH ⟨m, hm⟩
      cases hm
      exact hH ⟨m, rfl⟩
    · rintro ⟨r, m⟩ hmem ⟨i, rfl⟩
      cases List.mem_singleton.mp hmem
  · -- Its own actions write no membership.
    intro x x' v hx hacts o c sender id body hcall
    have hsame : x'.call = x.call := by cases hacts <;> rfl
    refine (hx o c sender id body (hsame ▸ hcall)).acts ?_ hacts
    intro ws db hsafe hgood
    have hget : (view ws db).rows.get (.member o sender) = db.rows.get (.member o sender) :=
      view_get_of_untouched fun r hr => hsafe _ hr r rfl
    have hactive : (view ws db).active o sender = db.active o sender :=
      congrArg (Option.any _) hget
    exact hactive.symm.trans hgood
  · -- Of the others only a suspension or a departure takes access away, and none commits here.
    intro s hclear hrun t x out t' y hne hx hends hy hJ o c sender id body hcall
    refine (hJ o c sender id body hcall).other ?_
    intro hpassed hactive
    have hg := (reachable_safe hrun.reachable).guarantee (sound false) hx hends
    cases hends with
    | commits hp =>
        refine hg.2.1.stays_active ?_ hactive
        intro hq
        exact hclear t x _ hx hp t' y o c sender id body hne hy hcall hq hpassed
    | fails | aborts => exact hactive

/-- **Nobody posts after losing access**, in every run in which no suspension or departure
commits while a post of the one who loses access has passed its check: the sender of a
message is an active member of the channel's organization, and has not departed, in the
state in which the message commits. -/
theorem posted_by_members {s : System}
    (h : (engine anyCall).ReachableIn PostsClear World.empty s) {e : Entry}
    (he : e ∈ s.world.history) (hcall : e.call.call = .post_message o c sender id body)
    {ws : List Write} {m : Message}
    (hout : e.outcome = .committed ws (.post_message (.ok (.posted m)))) :
    ∃ r, e.before.channel c = some r ∧ e.before.active r.organization_id sender = true
      ∧ e.before.departed sender = false := by
  have hv : (allRules false).valid World.empty := Consistent.empty
  have hactive : ∀ e ∈ s.world.history, ∀ o c sender id body ws m,
      e.call.call = .post_message o c sender id body →
      e.outcome = .committed ws (.post_message (.ok (.posted m))) →
      e.before.active o sender = true := by
    refine ((sound false).invariant (P := PostsClear)
      (fun s _ => Txn.Rules.clear_of_presumes presumes_nothing s) hv
      (I := fun v => ∀ e ∈ v.history, ∀ o c sender id body ws m,
        e.call.call = .post_message o c sender id body →
        e.outcome = .committed ws (.post_message (.ok (.posted m))) →
        e.before.active o sender = true) ?_ ?_ h).2
    · intro e he
      cases he
    · -- A new entry is a call that ends now, and what it has kept holds of the state it ends in.
      intro s _ hrun _ t x out hx hends _ hI e he o c sender id body ws m hcall hout
      obtain he | he := List.mem_append.mp he
      · exact hI e he o c sender id body ws m hcall hout
      · cases List.mem_singleton.mp he
        cases hends with
        | commits hp =>
            cases hout
            exact (posts_kept hrun t x hx o c sender id body hcall).good hp ⟨m, rfl⟩
        | fails | aborts => cases hout
  obtain ⟨hc, hspec⟩ := reachable_commit h.reachable he
  have hcommit := hspec ws _ hout
  have hmember := hactive e he o c sender id body ws m hcall hout
  obtain ⟨⟨call, tx⟩, L, out, before⟩ := e
  cases hcall
  obtain ⟨r, ⟨rfl, rfl, rfl⟩, ⟨-, -, row, hsent⟩ | ⟨hreply, -⟩⟩ := hcommit
  · refine ⟨row, hsent.channel, by rwa [hsent.organization], ?_⟩
    rw [← Bool.not_eq_true]
    intro hdeparted
    rw [hc.not_active hdeparted] at hmember
    cases hmember
  · cases hreply

/-! ## Two runs -/

/-- An invite brings the person 3 into an organization with a channel. -/
def channelJoined : List Request :=
  founding ++ [⟨.create_invite ⟨1⟩ ⟨10⟩ (some (['t'], first_key)) 100 1 ⟨30⟩, ⟨0, 4⟩⟩,
    ⟨.accept_invite first_key ['c'] [] ['C'] ⟨3⟩, ⟨0, 5⟩⟩,
    ⟨.create_channel ⟨1⟩ ⟨10⟩ .organization ['c'] ⟨50⟩, ⟨0, 6⟩⟩]

/-- What 3 posts. -/
def joinedPost : Call :=
  .post_message ⟨10⟩ ⟨50⟩ ⟨3⟩ ⟨0x019a00000000700080000000000000aa, by decide⟩ ['m']

/-- Is the entry a message posted by a call of `sender` to `o`? -/
def Posted (o : OrganizationId) (sender : ActorId) (e : Entry) : Prop :=
  ∃ c id body ws m, e.call.call = .post_message o c sender id body
    ∧ e.outcome = .committed ws (.post_message (.ok (.posted m)))

/-- `Posted`, computed. -/
def posted (o : OrganizationId) (sender : ActorId) (e : Entry) : Bool :=
  match e.call.call, e.outcome with
  | .post_message o' _ sender' _ _, .committed _ (.post_message (.ok (.posted _))) =>
      o' = o ∧ sender' = sender
  | _, _ => false

theorem posted_sound {e : Entry} (h : posted o sender e = true) : Posted o sender e := by
  unfold posted at h
  split at h
  · rename_i hcall hout
    obtain ⟨rfl, rfl⟩ := of_decide_eq_true h
    exact ⟨_, _, _, _, _, hcall, hout⟩
  · cases h

/-- The person 3 posts, with nobody else around. -/
theorem posted_by_members_joined : ∃ e : Entry, Posted ⟨10⟩ ⟨3⟩ e
    ∧ ∃ c r, e.before.channel c = some r ∧ e.before.active r.organization_id ⟨3⟩ = true
      ∧ e.before.departed ⟨3⟩ = false := by
  have hrun : (((engine anyCall).serve 100 (channelJoined ++ [⟨joinedPost, ⟨0, 7⟩⟩])
      (Txn.Engine.idle World.empty)).any fun s =>
        s.world.history.any fun e => posted ⟨10⟩ ⟨3⟩ e) = true := by
    decide +kernel
  obtain ⟨s, hs, hcheck⟩ := (Option.any_eq_true _ _).mp hrun
  obtain ⟨e, he, hposted⟩ := List.any_eq_true.mp hcheck
  obtain ⟨c, id, body, ws, m, hcall, hout⟩ := posted_sound hposted
  refine ⟨e, ⟨c, id, body, ws, m, hcall, hout⟩, c, posted_by_members ?_ he hcall hout⟩
  refine Txn.Engine.ReachableIn.of_serve ?_ hs
  intro s halone t x b hx _ t' y o c sender id body hne hy
  by_cases ht : t = 0
  · cases (halone t' (ht ▸ hne)).symm.trans hy
  · cases (halone t ht).symm.trans hx

/-- 3 has its insert checked; 1 suspends 3; the insert goes on to its commit. -/
def suspendedMeanwhile : List (Txn.Move Request) :=
  .start 1 ⟨joinedPost, ⟨0, 10⟩⟩ :: List.replicate 4 (.advance 1)
    ++ .start 2 ⟨.suspend_member ⟨1⟩ ⟨10⟩ ⟨3⟩, ⟨0, 11⟩⟩ :: List.replicate 15 (.advance 2)
    ++ List.replicate 10 (.advance 1)

/-- **A message commits after its sender's suspension has.** -/
theorem posted_after_suspension : ∃ s : System, (engine anyCall).Reachable World.empty s
    ∧ ∃ e ∈ s.world.history, Posted ⟨10⟩ ⟨3⟩ e ∧ e.before.active ⟨10⟩ ⟨3⟩ = false := by
  have hrun : (((engine anyCall).serve 100 channelJoined (Txn.Engine.idle World.empty)).any
      fun s => ((engine anyCall).run s suspendedMeanwhile).any fun s =>
        s.world.history.any fun e => posted ⟨10⟩ ⟨3⟩ e && !e.before.active ⟨10⟩ ⟨3⟩) = true := by
    decide +kernel
  obtain ⟨s₀, hserve, hrest⟩ := (Option.any_eq_true _ _).mp hrun
  obtain ⟨s, hs, hcheck⟩ := (Option.any_eq_true _ _).mp hrest
  obtain ⟨e, he, hposted⟩ := List.any_eq_true.mp hcheck
  simp only [Bool.and_eq_true, Bool.not_eq_true'] at hposted
  have hfirst := (Txn.Engine.ReachableIn.of_serve (fun _ h => h) hserve).reachable
  exact ⟨s, hfirst.trans (Txn.Engine.Steps.of_run _ hs), e, he, posted_sound hposted.1, hposted.2⟩

end Fukulow
