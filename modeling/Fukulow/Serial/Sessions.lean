/-
`operations/sessions.rs`, run alone.
-/
import Fukulow.Operations.Sessions
import Fukulow.Serial.Rules

set_option autoImplicit false

namespace Fukulow

variable {db₀ db : Database} {tx : Transaction} {a : ActorId} {hash : TokenHash}

theorem mem_sessions_with_token {i : SessionId} :
    i ∈ sessions_with_token db hash ↔ ∃ r, db.session i = some r ∧ r.token_hash = hash := by
  refine Txn.Store.mem_select.trans ⟨?_, ?_⟩
  · rintro ⟨k, r, hr, hread⟩
    cases k with
    | session j =>
        simp only [Option.ite_none_right_eq_some, Option.some.injEq] at hread
        obtain ⟨htoken, rfl⟩ := hread
        exact ⟨r, hr, htoken⟩
    | _ => cases hread
  · rintro ⟨r, hr, htoken⟩
    exact ⟨.session i, r, hr, by simp [htoken]⟩

/-! ## Signing in -/

/-- **`sign_in`, alone**, with an email that can be stored: a new session does not fail. The person
is there as long as nobody else is around, so the insert's foreign key finds the user. -/
theorem solo_sign_in {T : Type} {email : Text} {verify : Text → Bool}
    {new_token : Unit → Option (T × TokenHash)} {expires_at : Instant} {id : SessionId}
    (hemail : storable email = true) (hnew : db.session id = none)
    (htoken : ∀ t h, new_token () = some (t, h) → sessions_with_token db h = []) :
    (sign_in tx email verify new_token expires_at id).Solo Write.apply db₀ (fun _ _ => True)
      (fun e => e = .invalidCredentials ∨ e = .tokenUnavailable) db := by
  unfold sign_in
  simp only [hemail, Bool.not_true, Bool.false_eq_true, if_false]
  rw [Txn.Prog.solo_bind, solo_lift, solo_select]
  split
  · exact .inl rfl
  rename_i actor _ _
  rw [Txn.Prog.solo_bind, solo_lift, solo_lock_actor]
  split
  · exact .inl rfl
  rw [Txn.Prog.solo_bind, solo_lift, solo_select]
  split
  · exact .inl rfl
  rename_i hperson
  split
  · exact .inr rfl
  rename_i token hash hnewtoken
  rw [Txn.Prog.solo_bind, solo_lift, solo_insert _ hnew]
  · have hfree : (session_token_index hash).taken db = false := by
      change (!(sessions_with_token db hash).isEmpty) = false
      rw [htoken token hash hnewtoken]
      rfl
    have hadm : sessions_insert (set_context (begin tx (.signInEmail email)) (.actor actor))
        ⟨actor, hash, expires_at, none⟩ = true := by
      simp [sessions_insert, set_context]
    simp only [hadm, admit_if, if_true, List.find?_cons, hfree, List.find?_nil]
    trivial
  · intro ref hmem
    cases List.mem_singleton.mp hmem
    refine Reference.holds_of_put ?_ (by rintro ⟨⟩)
    intro hnone
    have huser : db.user actor = none := hnone
    simp [huser] at hperson

/-! ## Resolving -/

/-- The live session of a token: not revoked, and expiring later. -/
def SessionRow.live (r : SessionRow) (now : Instant) : Bool :=
  r.revoked_at = none && now < r.expires_at

/-- Whom a token resolves to. -/
def resolution (db : Database) (hash : TokenHash) (now : Instant) : Option ActorId :=
  (sessions_with_token db hash).head?.bind fun i =>
    ((db.session i).filter fun r => r.live now).map SessionRow.actor_id

/-- `resolve_session` is one read: what it answers is decided at one moment. -/
theorem resolve_session_eq : resolve_session tx hash = .read fun db =>
    match resolution db hash tx.now with
    | none => .throw .noSession
    | some a => .pure a := by
  have hread : ∀ db : Database, ((sessions_with_token db hash).head?.bind fun i =>
      ((db.session i).filter fun r => sessions_select (begin tx (.sessionToken hash)) r
        && r.revoked_at = none && (begin tx (.sessionToken hash)).now < r.expires_at).map
          SessionRow.actor_id) = resolution db hash tx.now := by
    intro db
    unfold resolution
    cases hhead : (sessions_with_token db hash).head? with
    | none => rfl
    | some i =>
        obtain ⟨r, hr, htoken⟩ := mem_sessions_with_token.mp (List.mem_of_mem_head? hhead)
        have hseen : sessions_select (begin tx (.sessionToken hash)) r = true := by
          simp [sessions_select, begin, set_context, htoken]
        simp only [Option.bind_some, hr, Option.filter_some, hseen, Bool.true_and]
        rfl
  refine congrArg Txn.Prog.read (funext fun db => ?_)
  rw [← hread]
  rfl

/-- **`resolve_session`, alone**: it answers by the token's session, and says nothing of why a
token resolves to nobody. -/
theorem solo_resolve_session {Q : ActorId → Database → Prop} {F : SessionError → Prop} :
    (resolve_session tx hash).Solo Write.apply db₀ Q F db ↔
      match resolution db hash tx.now with
      | some a => Q a db
      | none => F .noSession := by
  rw [resolve_session_eq]
  change (match resolution db hash tx.now with
    | none => (.throw .noSession : Sql SessionError ActorId)
    | some a => .pure a).Solo Write.apply db₀ Q F db ↔ _
  cases resolution db hash tx.now with
  | none => exact Iff.rfl
  | some a => exact Iff.rfl

/-! ## Revoking -/

/-- The row of a session revoked at `now`: the first revocation stays. -/
def SessionRow.revoked (r : SessionRow) (now : Instant) : SessionRow :=
  { r with revoked_at := some (r.revoked_at.getD now) }

/-- **`revoke_session`, alone.** Of a session revoked before, the row keeps its moment; the caller
is answered the same. -/
theorem solo_revoke_session {Q : Unit → Database → Prop} {F : SessionError → Prop} :
    (revoke_session tx a hash).Solo Write.apply db₀ Q F db ↔
      match (sessions_with_token db hash).head?.bind fun i =>
        ((db.session i).filter fun r => r.actor_id = a).map fun r => (i, r) with
      | some (i, r) => Q () ((Write.put (.session i) (some (r.revoked tx.now))).apply db)
      | none => F .noSession := by
  unfold revoke_session
  rw [Txn.Prog.solo_bind, solo_snapshot]
  cases hhead : (sessions_with_token db hash).head? with
  | none => exact Iff.rfl
  | some i =>
      obtain ⟨r, hr, htoken⟩ := mem_sessions_with_token.mp (List.mem_of_mem_head? hhead)
      simp only [Option.bind_some, hr]
      rw [Txn.Prog.solo_bind, solo_lift, solo_update_row,
        show db.rows.get (.session i) = some r from hr]
      -- The `WHERE` has the actor as well; the session of someone else is not found.
      by_cases hown : r.actor_id = a
      · subst hown htoken
        have hpolicy : ∀ row : SessionRow, row.actor_id = r.actor_id →
            sessions_update (begin tx (.actor r.actor_id)) row = true := by
          intro row hrow
          simp [sessions_update, begin, set_context, hrow]
        have hseen : sessions_select (begin tx (.actor r.actor_id)) r = true := by
          simp [sessions_select, begin, set_context]
        simp only [hseen, hpolicy, decide_true, Bool.and_self, Option.filter_some, if_true,
          Option.map_some]
        exact Iff.rfl
      · simp only [hown, decide_false, Bool.false_and, Bool.and_false, Option.filter_some,
          Bool.false_eq_true, if_false, Option.map_none]
        exact Iff.rfl

end Fukulow
