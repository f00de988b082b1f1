/-
`operations/invites.rs`, run alone: creating, revoking and accepting invites.
-/
import Fukulow.Serial.Identity

set_option autoImplicit false

namespace Fukulow

variable {db₀ db : Database} {tx : Transaction} {p : ActorId} {o : OrganizationId}

/-! ## The capability -/

/-- An active member is allowed what its role holds. This is the one place where an operation asks
for a capability. -/
theorem solo_authorize {Q : Access → Database → Prop} {F : SqlError → Prop} {s : Settings}
    {capability : Capability} {r : MemberRow} (hs : s.actor_id = some p)
    (hr : db.member o p = some r) (hstatus : r.status = .active) :
    (authorize s p o capability).Solo Write.apply db₀ Q F db ↔
      Q (if r.role.holds capability then .allowed else .forbidden) db := by
  have hp : db.active o p = true := Database.active_iff.mpr ⟨r, hr, hstatus⟩
  have hseen : organization_members_select s db o p = true := by
    rw [organization_members_select, active_organizations_actor hs, hp, Bool.true_or]
  have hupdate : organization_members_update_using s db o p = true := hseen
  rw [authorize, Txn.Prog.solo_bind, solo_select_locking,
    show db.rows.get (.member o p) = some r from hr]
  simp only [hseen, hupdate, hstatus, decide_true, Bool.and_self, Option.filter_some, if_true]
  exact Iff.rfl

/-! ## Creating -/

/-- Is there an invite with this token? -/
def Database.inviteToken (db : Database) (hash : TokenHash) : Bool :=
  (invite_token_index hash).taken db

/-- **`create_invite`, alone**: when it succeeds, and each of its errors with when it is answered.
The token source is asked only after the capability; its failure is not the performer's. -/
theorem solo_create_invite {T : Type} {new_token : Unit → Option (T × TokenHash)}
    {expires_at : Instant} {max_uses : ℤ} {id : InviteId} (href : References db) :
    (create_invite tx p o new_token expires_at max_uses id).Solo Write.apply db₀
      (fun _ _ => db.authorized o p .inviteMember
        ∧ ∀ t hash, new_token () = some (t, hash) → db.inviteToken hash = false)
      (fun e => e = .notAMember ∧ db.active o p = false
        ∨ e = .forbidden ∧ db.active o p = true ∧ ¬ db.authorized o p .inviteMember
        ∨ e = .tokenUnavailable ∧ new_token () = none
        ∨ (∃ e', e = .database e') ∧ (max_uses ≤ 0 ∨ db.invite id ≠ none
          ∨ ∃ t hash, new_token () = some (t, hash) ∧ db.inviteToken hash = true)) db := by
  rw [create_invite, Txn.Prog.solo_bind, solo_lift, solo_lock_actor, Txn.Prog.solo_bind,
    solo_lift, solo_lock_organization rfl href.organization_of_active]
  cases hp : db.active o p with
  | false => simp
  | true =>
      simp only [Bool.not_true, Bool.false_eq_true, if_false]
      obtain ⟨r, hr, hstatus⟩ := Database.active_iff.mp hp
      have hauthorized : db.authorized o p .inviteMember ↔ r.role.holds .inviteMember = true := by
        simp [Database.authorized, hr, hstatus]
      rw [Txn.Prog.solo_bind, solo_lift, solo_authorize rfl hr hstatus]
      cases hholds : r.role.holds .inviteMember with
      | false => simp [hauthorized, hholds]
      | true =>
          simp only [if_true]
          cases htoken : new_token () with
          | none => simp
          | some found =>
              obtain ⟨token, hash⟩ := found
              have horg : db.organization o ≠ none := href.organization_of_active hp
              have hactor : db.actor p ≠ none := (href.member o p r hr).2
              have hactive : fukulow_active_organizations (begin tx (.actor p)) db o = true := by
                rwa [active_organizations_actor rfl]
              -- What is inserted comes from a `SELECT` of the organization, which has to be seen.
              have hsource : ((db.organization o).isSome
                  && organizations_select (begin tx (.actor p)) db o) = true := by
                rw [organizations_select, hactive, Bool.and_true]
                exact Option.isSome_iff_ne_none.mpr horg
              have hinsert : ∀ row : InviteRow, row.organization_id = o →
                  invites_insert (begin tx (.actor p)) db row = true := by
                rintro row rfl
                exact hactive
              have hselect : ∀ row : InviteRow, row.organization_id = o →
                  invites_select (begin tx (.actor p)) db row = true := by
                rintro row rfl
                rw [invites_select, hactive, Bool.true_or]
              simp only
              rw [Txn.Prog.solo_bind, solo_lift, solo_insert_from hsource]
              · simp only [fukulow_guard_invite_insert, decide_true, Bool.not_true, hinsert, hselect,
                  Bool.and_self, Bool.false_eq_true, if_false, admit_if]
                -- The `CHECK`, the primary key and the unique index, in the order they are asked.
                by_cases hmax : 0 < max_uses
                case neg => simpa [hmax, FromSql.database] using .inl (Int.not_lt.mp hmax)
                simp only [hmax, decide_true, if_true]
                cases hid : db.rows.get (.invite id) with
                | some x =>
                    refine .inr (.inr (.inr ⟨⟨_, rfl⟩, .inr (.inl ?_)⟩))
                    exact Option.ne_none_iff_exists'.mpr ⟨x, hid⟩
                | none =>
                    simp only [Option.isSome_none, Bool.false_eq_true, if_false]
                    split
                    · rename_i hfound
                      have hfree : db.inviteToken hash = false :=
                        Bool.eq_false_iff.mpr (List.find?_eq_none.mp hfound _ List.mem_cons_self)
                      rw [Txn.Prog.solo_bind]
                      refine solo_record rfl href hp (by rintro ⟨⟩) (by rintro ⟨⟩) (by rintro ⟨⟩)
                        ⟨hauthorized.mpr hholds, fun t h heq => ?_⟩
                      cases heq
                      exact hfree
                    · rename_i index hfound
                      have htaken := List.find?_some hfound
                      cases List.mem_singleton.mp (List.mem_of_find?_eq_some hfound)
                      exact .inr (.inr (.inr ⟨⟨_, rfl⟩, .inr (.inr ⟨token, hash, rfl, htaken⟩)⟩))
              · intro ref hmem
                simp only [List.mem_cons, List.not_mem_nil, or_false] at hmem
                obtain rfl | rfl := hmem
                · exact Reference.holds_of_put horg (by rintro ⟨⟩)
                · exact Reference.holds_of_put hactor (by rintro ⟨⟩)

/-! ## Revoking -/

/-- **`revoke_invite`, alone.** A repeated revocation is no error and changes nothing. -/
theorem solo_revoke_invite {invite : Option InviteId} (href : References db) :
    (revoke_invite tx p o invite).Solo Write.apply db₀
      (fun _ _ => db.authorized o p .inviteMember)
      (fun e => e = .notAMember ∧ db.active o p = false
        ∨ e = .forbidden ∧ db.active o p = true ∧ ¬ db.authorized o p .inviteMember
        ∨ e = .notFound ∧ db.authorized o p .inviteMember) db := by
  unfold revoke_invite
  rw [Txn.Prog.solo_bind, solo_lift, solo_lock_actor, Txn.Prog.solo_bind,
    solo_lift, solo_lock_organization rfl href.organization_of_active]
  cases hp : db.active o p with
  | false => simp
  | true =>
      simp only [Bool.not_true, Bool.false_eq_true, if_false]
      obtain ⟨r, hr, hstatus⟩ := Database.active_iff.mp hp
      have hauthorized : db.authorized o p .inviteMember ↔ r.role.holds .inviteMember = true := by
        simp [Database.authorized, hr, hstatus]
      rw [Txn.Prog.solo_bind, solo_lift, solo_authorize rfl hr hstatus]
      cases hholds : r.role.holds .inviteMember with
      | false => simp [hauthorized, hholds]
      | true =>
          simp only [if_true]
          have hmay := hauthorized.mpr hholds
          have hactive : fukulow_active_organizations (begin tx (.actor p)) db o = true := by
            rwa [active_organizations_actor rfl]
          have hseen : ∀ row : InviteRow, row.organization_id = o →
              invites_select (begin tx (.actor p)) db row = true
                ∧ invites_update (begin tx (.actor p)) db row = true := by
            rintro row rfl
            exact ⟨by rw [invites_select, hactive, Bool.true_or],
              by rw [invites_update, hactive, Bool.true_or]⟩
          cases invite with
          | none => exact .inr (.inr ⟨rfl, hmay⟩)
          | some i =>
              simp only
              rw [Txn.Prog.solo_bind, solo_lift, solo_select_locking]
              split
              case h_1 => exact .inr (.inr ⟨rfl, hmay⟩)
              rename_i row hrow
              obtain ⟨hget, hmatch⟩ := Option.filter_eq_some_iff.mp hrow
              split
              -- One that is not open is left alone, and that is a success.
              case isFalse => exact hmay
              rename_i hopen
              have horg : row.organization_id = o :=
                of_decide_eq_true (Bool.and_eq_true_iff.mp hmatch).2
              have hguard : fukulow_guard_invite_use (begin tx (.actor p)) row
                  { row with revoked_at := some tx.now, xmin := tx.xid } = true := by
                simp [fukulow_guard_invite_use, hopen]
              rw [Txn.Prog.solo_bind, solo_lift]
              refine solo_update_ok hrow (if_pos ?_)
                (solo_record rfl href hp (by rintro ⟨⟩) (by rintro ⟨⟩) (by rintro ⟨⟩) hmay)
              exact Bool.and_eq_true_iff.mpr ⟨hguard, (hseen _ horg).2⟩

/-! ## Accepting -/

/-- What the schema promises of the invites of every state: no two share a token, a count of
uses is not negative, and the organization is there. -/
structure InviteConstraints (db : Database) : Prop where
  token : ∀ i j r r', db.invite i = some r → db.invite j = some r' →
    r.token_hash = r'.token_hash → i = j
  uses : ∀ i r, db.invite i = some r → 0 ≤ r.used_count
  organization : ∀ i r, db.invite i = some r → db.organization r.organization_id ≠ none

/-- Can somebody join by this token? -/
def Database.invited (db : Database) (hash : TokenHash) (now : Instant) : Prop :=
  ∃ i r, db.invite i = some r ∧ r.open hash now

theorem mem_invites_with_token {hash : TokenHash} {i : InviteId} :
    i ∈ invites_with_token db hash ↔ ∃ r, db.invite i = some r ∧ r.token_hash = hash := by
  refine Txn.Store.mem_select.trans ⟨?_, ?_⟩
  · rintro ⟨k, r, hr, hread⟩
    cases k with
    | invite j =>
        simp only [Option.ite_none_right_eq_some, Option.some.injEq] at hread
        obtain ⟨htoken, rfl⟩ := hread
        exact ⟨r, hr, htoken⟩
    | _ => cases hread
  · rintro ⟨r, hr, htoken⟩
    exact ⟨.invite i, r, hr, by simp [htoken]⟩

/-- **`invite_is_usable`, alone**: it changes nothing, always answers, and is true exactly if
somebody can join by the token. -/
theorem solo_invite_is_usable {hash : TokenHash} :
    (invite_is_usable tx hash).Solo Write.apply db₀
      (fun usable t => t = db ∧ (usable = true ↔ db.invited hash tx.now)) (fun _ => False) db := by
  rw [invite_is_usable, solo_lift, solo_select]
  refine ⟨rfl, ?_⟩
  rw [List.any_eq_true]
  constructor
  · rintro ⟨i, hi, hany⟩
    obtain ⟨r, hr, htoken⟩ := mem_invites_with_token.mp hi
    simp only [hr, Option.any_some, Bool.and_eq_true, decide_eq_true_eq] at hany
    obtain ⟨⟨⟨⟨-, hkind⟩, huses⟩, hrevoked⟩, hexpires⟩ := hany
    refine ⟨i, r, hr, htoken, ?_, huses, hrevoked, hexpires⟩
    cases htarget : r.target with
    | organization => rfl
    | team t =>
        rw [htarget] at hkind
        cases hkind
  · rintro ⟨i, r, hr, hopen⟩
    refine ⟨i, mem_invites_with_token.mpr ⟨r, hr, hopen.token⟩, ?_⟩
    have hseen : invites_select (begin tx (.inviteToken hash)) db r = true := by
      simp [invites_select, begin, set_context, hopen.token]
    have hnow : (begin tx (.inviteToken hash)).now < r.expires_at := hopen.expires
    simp [hr, hseen, hopen.target, InviteTarget.kind, hopen.uses, hopen.revoked, hnow]

theorem head?_of_unique {τ : Type} {x : τ} {xs : List τ} (hx : x ∈ xs)
    (hall : ∀ y ∈ xs, y = x) : xs.head? = some x := by
  cases xs with
  | nil => cases hx
  | cons y ys => rw [List.head?_cons, hall y List.mem_cons_self]

section Use

variable {Q : Option (InviteId × InviteRow) → Database → Prop} {F : SqlError → Prop}
variable {s : Settings} {hash : TokenHash}

/-- May the conditional use take the invite? It does not look at the kind. -/
structure InviteRow.usable (r : InviteRow) (hash : TokenHash) (now : Instant) : Prop where
  token : r.token_hash = hash
  uses : r.used_count < r.max_uses
  revoked : r.revoked_at = none
  expires : now < r.expires_at

theorem solo_use_invite_none
    (hnone : ∀ i r, db.invite i = some r → ¬ r.usable hash s.now) :
    (use_invite s hash).Solo Write.apply db₀ Q F db ↔ Q none db := by
  rw [use_invite, Txn.Prog.solo_bind, solo_snapshot]
  cases hhead : (invites_with_token db hash).head? with
  | none => exact Iff.rfl
  | some i =>
      obtain ⟨r, hr, htoken⟩ := mem_invites_with_token.mp (List.mem_of_mem_head? hhead)
      have hmiss : (r.token_hash = hash && r.used_count < r.max_uses && r.revoked_at = none
          && s.now < r.expires_at) = false := by
        rw [← Bool.not_eq_true]
        intro h
        simp only [Bool.and_eq_true, decide_eq_true_eq] at h
        exact hnone i r hr ⟨htoken, h.1.1.2, h.1.2, h.2⟩
      simp only
      rw [Txn.Prog.solo_bind, solo_update_row, show db.rows.get (.invite i) = some r from hr]
      simp only [hmiss, Bool.and_false, Option.filter_some, Bool.false_eq_true, if_false]
      exact Iff.rfl

/-- The conditional use takes the invite: one more use, written by this transaction, which is what
the policies of the person's membership look for. -/
theorem solo_use_invite_some (hs : s.invite_token_hash = some hash) {i : InviteId} {r : InviteRow}
    (hr : db.invite i = some r) (huse : r.usable hash s.now)
    (hunique : ∀ j r', db.invite j = some r' → r'.token_hash = hash → j = i) :
    (use_invite s hash).Solo Write.apply db₀ Q F db ↔
      Q (some (i, { r with used_count := r.used_count + 1, xmin := s.xid }))
        ((Write.put (.invite i)
          (some { r with used_count := r.used_count + 1, xmin := s.xid })).apply db) := by
  have hhead : (invites_with_token db hash).head? = some i := by
    refine head?_of_unique (mem_invites_with_token.mpr ⟨r, hr, huse.token⟩) fun j hj => ?_
    obtain ⟨r', hr', htoken⟩ := mem_invites_with_token.mp hj
    exact hunique j r' hr' htoken
  have hseen : ∀ row : InviteRow, row.token_hash = hash →
      invites_select s db row = true ∧ invites_update s db row = true := by
    rintro row rfl
    simp [invites_select, invites_update, hs]
  have hmatch : (r.token_hash = hash && r.used_count < r.max_uses && r.revoked_at = none
      && s.now < r.expires_at) = true := by
    simp [huse.token, huse.uses, huse.revoked, huse.expires]
  -- The trigger asks again for what the `WHERE` has asked.
  have hguard : fukulow_guard_invite_use s r
      { r with used_count := r.used_count + 1, xmin := s.xid } = true := by
    have hmore : r.used_count + 1 ≠ r.used_count := by omega
    simp [fukulow_guard_invite_use, hmore, huse.uses, huse.revoked, huse.expires]
  rw [use_invite, Txn.Prog.solo_bind, solo_snapshot, hhead]
  simp only
  rw [Txn.Prog.solo_bind, solo_update_row, show db.rows.get (.invite i) = some r from hr]
  simp only [hmatch, (hseen r huse.token).1, (hseen r huse.token).2, Bool.and_self,
    Option.filter_some, if_true, hguard, (hseen { r with
      used_count := r.used_count + 1, xmin := s.xid } huse.token).2]
  exact Iff.rfl

end Use

/-- The writes of an acceptance. -/
def acceptance (tx : Transaction) (i : InviteId) (r : InviteRow) (a : ActorId)
    (email password_hash display_name : Text) : List Write :=
  [.put (.invite i) (some { r with used_count := r.used_count + 1, xmin := tx.xid }),
    .put (.actor a) (some ⟨.human, some display_name, none⟩),
    .put (.user a) (some ⟨email, password_hash⟩),
    .put (.member r.organization_id a) (some ⟨.member, .active, none⟩),
    .log ⟨r.organization_id, a, .member_invited a i⟩]

/-- The new person joins: the policies ask for an invite whose current version is a use by this
transaction, and the record for a member, which the person is by then. -/
theorem solo_join {Q : ActorId × OrganizationId → Database → Prop} {F : AcceptInviteError → Prop}
    {hash : TokenHash} {a : ActorId} {i : InviteId} {v : InviteRow}
    (hv : db.invite i = some v) (htoken : v.token_hash = hash) (htarget : v.target = .organization)
    (hrevoked : v.revoked_at = none) (hexpires : tx.now < v.expires_at) (hused : 0 < v.used_count)
    (hxmin : v.xmin = tx.xid) (horg : db.organization v.organization_id ≠ none)
    (hactor : db.actor a ≠ none) (hmember : db.member v.organization_id a = none)
    (hQ : Q (a, v.organization_id) (view [.put (.member v.organization_id a)
      (some ⟨.member, .active, none⟩), .log ⟨v.organization_id, a, .member_invited a i⟩] db)) :
    (do
      (insert (.member v.organization_id a) ⟨.member, .active, none⟩ "organization_members_pkey"
        (fun db => admit_if
          (organization_members_insert (set_context (begin tx (.inviteToken hash)) (.actor a)) db
              v.organization_id a ⟨.member, .active, none⟩
            || organization_members_insert_invite
              (set_context (begin tx (.inviteToken hash)) (.actor a)) db v.organization_id a
              ⟨.member, .active, none⟩)
          .insufficientPrivilege)
        [] [⟨.organization v.organization_id, fun _ => true⟩, ⟨.actor a, fun _ => true⟩] :
          Sql SqlError Unit)
      ((Event.member_invited a i).write (set_context (begin tx (.inviteToken hash)) (.actor a))
        v.organization_id a : Sql SqlError Unit)
      return (a, v.organization_id) : Sql AcceptInviteError (ActorId × OrganizationId)).Solo
      Write.apply db₀ Q F db := by
  have hpolicy : organization_members_insert_invite
      (set_context (begin tx (.inviteToken hash)) (.actor a)) db v.organization_id a
      ⟨.member, .active, none⟩ = true := by
    rw [organization_members_insert_invite, Bool.and_eq_true_iff]
    refine ⟨by simp [set_context], Txn.Store.select_nonempty_iff.mpr ⟨.invite i, v, i, hv, ?_⟩⟩
    simp [set_context, begin, htoken, htarget, InviteTarget.kind, hrevoked, hexpires, hused, hxmin]
  rw [Txn.Prog.solo_bind, solo_lift, solo_insert _ hmember]
  · simp only [hpolicy, Bool.or_true, admit_if, if_true, List.find?_nil]
    rw [Txn.Prog.solo_bind, solo_lift, solo_event_write
      ((put_get_of_ne (by simp)).trans_ne horg) ((put_get_of_ne (by simp)).trans_ne hactor)]
    -- The record is written by the new person, who is an active member from the insert on.
    have hadm : audit_events_insert (set_context (begin tx (.inviteToken hash)) (.actor a))
        ((Write.put (.member v.organization_id a) (some ⟨.member, .active, none⟩)).apply db)
        ⟨v.organization_id, a, .member_invited a i⟩ = true := by
      rw [audit_events_insert, active_organizations_actor (show (set_context
        (begin tx (.inviteToken hash)) (.actor a)).actor_id = some a from rfl), put_active_self]
      rfl
    rw [hadm]
    exact ⟨fun _ => hQ, (by rintro ⟨⟩)⟩
  · intro ref hmem
    simp only [List.mem_cons, List.not_mem_nil, or_false] at hmem
    obtain rfl | rfl := hmem
    · exact Reference.holds_of_put horg (by rintro ⟨⟩)
    · exact Reference.holds_of_put hactor (by rintro ⟨⟩)

/-- **`accept_invite`, alone**, for a new id and texts that can be stored. There are two refusals,
the invite's before the email's; an acceptance writes exactly the five writes of `acceptance`. -/
theorem solo_accept_invite {hash : TokenHash} {email password_hash display_name : Text}
    {a : ActorId} (hi : InviteConstraints db) (hactor : db.actor a = none)
    (huser : db.user a = none) (hmember : ∀ o, db.member o a = none) (hemail : storable email = true)
    (hhash : storable password_hash = true) (hname : storable display_name = true) :
    (accept_invite tx hash email password_hash display_name a).Solo Write.apply db₀
      (fun reply t => ¬ db.emailUsed email ∧ ∃ i r, db.invite i = some r ∧ r.open hash tx.now
        ∧ reply = (a, r.organization_id)
        ∧ t = view (acceptance tx i r a email password_hash display_name) db)
      (fun e => e = .inviteUnusable ∧ ¬ db.invited hash tx.now
        ∨ e = .emailTaken ∧ db.invited hash tx.now ∧ db.emailUsed email) db := by
  unfold accept_invite
  rw [Txn.Prog.solo_bind, solo_lift]
  by_cases hnone : ∀ i r, db.invite i = some r →
      ¬ r.usable hash (begin tx (.inviteToken hash)).now
  · -- No invite takes the use.
    rw [solo_use_invite_none hnone]
    refine .inl ⟨rfl, ?_⟩
    rintro ⟨i, r, hr, hopen⟩
    exact hnone i r hr ⟨hopen.token, hopen.uses, hopen.revoked, hopen.expires⟩
  simp only [not_forall, not_not] at hnone
  obtain ⟨i, r, hr, huse⟩ := hnone
  have hunique : ∀ j r', db.invite j = some r' → r'.token_hash = hash → j = i :=
    fun j r' hr' htoken => hi.token j i r' r hr' hr (htoken.trans huse.token.symm)
  rw [solo_use_invite_some rfl hr huse hunique]
  simp only
  cases htarget : r.target with
  | team t =>
      -- The use of a team invite is rolled back.
      refine .inl ⟨rfl, ?_⟩
      rintro ⟨j, r', hr', hopen⟩
      cases hunique j r' hr' hopen.token
      cases hr.symm.trans hr'
      cases htarget.symm.trans hopen.target
  | organization =>
      have hopen : r.open hash tx.now :=
        ⟨huse.token, htarget, huse.uses, huse.revoked, huse.expires⟩
      have hinvited : db.invited hash tx.now := ⟨i, r, hr, hopen⟩
      simp only [InviteTarget.kind, accepts_new_person, Bool.not_true, Bool.false_eq_true, if_false]
      rw [Txn.Prog.solo_bind, Txn.Prog.solo_mapError, solo_create_person
        ((put_get_of_ne (by simp)).trans hactor) ((put_get_of_ne (by simp)).trans huser) hemail hhash
        hname, emailUsed_put (by simp)]
      refine ⟨fun hused => .inr ⟨rfl, hinvited, hused⟩, fun hfree => ?_⟩
      refine solo_join (i := i) (v := { r with used_count := r.used_count + 1, xmin := tx.xid })
        ?_ huse.token htarget huse.revoked huse.expires (Int.lt_add_one_of_le (hi.uses i r hr)) rfl
        ?_ ?_ ?_ ?_
      · simp [Database.invite, Txn.Store.get_put_of_ne, htarget, begin, set_context]
      · simpa [Database.organization, Txn.Store.get_put_of_ne] using hi.organization i r hr
      · simp [Database.actor, Txn.Store.get_put_of_ne]
      · simpa [Database.member, Txn.Store.get_put_of_ne] using hmember r.organization_id
      · refine ⟨hfree, i, r, hr, hopen, rfl, ?_⟩
        rw [acceptance, htarget]
        rfl

end Fukulow
