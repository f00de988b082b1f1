/-
What a commit can do to one row.

`Effect` is the inversion of `CommitSpec`, once for all calls: it lists the ways a row is
written, each with what the commit found. An invariant of the committed states is then a
short case analysis on the rows it speaks of. A departure writes many rows at once, so its
resulting state is given as a whole.
-/
import Fukulow.Guarantee

set_option autoImplicit false

namespace Fukulow

variable {guarded : Bool} {q : Request} {ws : List Write} {reply : Reply} {db : Database}

/-- The calls of `p` that change the membership `r` of `a` in `o`, and what each makes of it. -/
inductive MemberChange (p : ActorId) (o : OrganizationId) (a : ActorId) (r : MemberRow) :
    Call → MemberRow → Prop
  | role (role : OrganizationRole) :
      MemberChange p o a r (.change_member_role p o a role) { r with role := role }
  | suspended : r.status = .active →
      MemberChange p o a r (.suspend_member p o a) { r with status := .suspended }
  | reactivated : r.status = .suspended →
      MemberChange p o a r (.reactivate_member p o a) { r with status := .active }

/-- The ways the commit of `q` writes the row `k`, as it finds `db`. -/
inductive Effect (guarded : Bool) (q : Request) (ws : List Write) (db : Database) :
    (k : Key) → Option (Row k) → Prop
  | actor_created (a : ActorId) (name : Text) : db.actor a = none →
      Effect guarded q ws db (.actor a) (some ⟨.human, some name, none⟩)
  | user_created (a : ActorId) (email hash : Text) : db.actor a = none →
      (view ws db).actor a ≠ none → Effect guarded q ws db (.user a) (some ⟨email, hash⟩)
  | organization_created (o : OrganizationId) (name slug : Text) (creator : ActorId) :
      q.call = .create_organization creator name slug o → db.organization o = none →
      Effect guarded q ws db (.organization o) (some ⟨name, slug⟩)
  | founder (o : OrganizationId) (a : ActorId) (name slug : Text) :
      q.call = .create_organization a name slug o → db.organization o = none →
      db.member o a = none → db.present a →
      Effect guarded q ws db (.member o a) (some ⟨.owner, .active, none⟩)
  | admitted (o : OrganizationId) (a : ActorId) (hash : TokenHash) (email pw name : Text) :
      q.call = .accept_invite hash email pw name a →
      (∃ i r, db.invite i = some r ∧ r.organization_id = o) → db.actor a = none →
      db.member o a = none →
      Effect guarded q ws db (.member o a) (some ⟨.member, .active, none⟩)
  | member_changed (p : ActorId) (o : OrganizationId) (a : ActorId) (r r' : MemberRow) (e : Event) :
      ws = [.put (.member o a) (some r'), .log ⟨o, p, e⟩] → db.active o p = true →
      db.member o a = some r → r.status ≠ .left → r'.status ≠ .left →
      MemberChange p o a r q.call r' →
      (db.activeOwner o a = true → r'.role = .owner ∧ r'.status = .active ∨ db.ownedWithout o a) →
      Effect guarded q ws db (.member o a) (some r')
  | team_created (p : ActorId) (t : TeamId) (r : TeamRow) :
      db.active r.organization_id p = true → db.team t = none →
      Effect guarded q ws db (.team t) (some r)
  | team_member_added (t : TeamId) (a : ActorId) (o : OrganizationId) (role : TeamRole) :
      (∃ r, db.team t = some r ∧ r.organization_id = o) → db.teamMember t a = none →
      db.active o a = true →
      Effect guarded q ws db (.teamMember t a) (some ⟨o, role⟩)
  | team_member_changed (t : TeamId) (a : ActorId) (r : TeamMemberRow) (role : TeamRole) :
      db.teamMember t a = some r → Effect guarded q ws db (.teamMember t a) (some { r with role := role })
  | team_member_removed (t : TeamId) (a : ActorId) (r : TeamMemberRow) :
      db.teamMember t a = some r → Effect guarded q ws db (.teamMember t a) none
  | channel_created (p : ActorId) (c : ChannelId) (o : OrganizationId) (scope : ChannelScope)
      (name : Text) : db.active o p = true →
      (∀ t, scope = .team t → ∃ r, db.team t = some r ∧ r.organization_id = o) →
      db.channel c = none → Effect guarded q ws db (.channel c) (some ⟨o, scope, name, 0⟩)
  | channel_counted (o : OrganizationId) (c : ChannelId) (sender : ActorId) (id : MessageId)
      (body : Text) (m : MessageRow) (r : ChannelRow) :
      q.call = .post_message o c sender id body → Sent ws db id m r →
      Effect guarded q ws db (.channel m.channel_id)
        (some { r with next_message_seq := r.next_message_seq + 1 })
  | channel_member_added (p : ActorId) (c : ChannelId) (a : ActorId) (o : OrganizationId) :
      q.call = .add_channel_member p o c a → db.channelMember c a = none →
      (∃ r, db.channel c = some r ∧ r.organization_id = o ∧ r.scope ≠ .organization) →
      db.present a →
      Effect guarded q ws db (.channelMember c a) (some ⟨o⟩)
  | message_sent (o : OrganizationId) (c : ChannelId) (sender : ActorId) (id : MessageId)
      (body : Text) (m : MessageRow) (r : ChannelRow) :
      q.call = .post_message o c sender id body → Sent ws db id m r →
      Effect guarded q ws db (.message id) (some m)
  | invite_created (p : ActorId) (i : InviteId) (r : InviteRow) :
      db.active r.organization_id p = true → db.invite i = none → r.used_count = 0 →
      r.revoked_at = none → 0 < r.max_uses →
      (∃ t expires, q.call
        = .create_invite p r.organization_id (some (t, r.token_hash)) expires r.max_uses i) →
      Effect guarded q ws db (.invite i) (some r)
  | invite_revoked (i : InviteId) (r : InviteRow) (now : Instant) (xid : ℕ) :
      db.invite i = some r → r.revoked_at = none →
      Effect guarded q ws db (.invite i) (some { r with revoked_at := some now, xmin := xid })
  | invite_used (i : InviteId) (r : InviteRow) (xid : ℕ) : db.invite i = some r →
      r.used_count < r.max_uses → r.revoked_at = none →
      Effect guarded q ws db (.invite i) (some { r with used_count := r.used_count + 1, xmin := xid })
  | session_opened (i : SessionId) (r : SessionRow) :
      (∃ email verify token expires, q.call = .sign_in email verify token expires i) →
      db.session i = none → db.present r.actor_id → db.user r.actor_id ≠ none →
      Effect guarded q ws db (.session i) (some r)
  | session_revoked (i : SessionId) (r : SessionRow) (now : Instant) :
      (∃ a hash, q.call = .revoke_session a hash) → db.session i = some r →
      Effect guarded q ws db (.session i) (some { r with revoked_at := some now })
  | departed (a : ActorId) (k : Key) (x : Row k) : q.call = .leave_service a → db.present a →
      (guarded = true → ∀ o, db.activeOwner o a = true → db.ownedWithout o a) →
      k.personal = true → db.rows.get k = some x → person k x = some a →
      Effect guarded q ws db k (departing q.tx.now k x)

/-- **The writes of a commit, classified.** One case for each call; that of a departure holds for
all its rows at once, and says of each what it was. -/
theorem CommitSpec.effect (h : CommitSpec guarded q ws reply db) {k : Key} {r : Option (Row k)}
    (hput : Write.put k r ∈ ws) : Effect guarded q ws db k r := by
  obtain ⟨c, tx⟩ := q
  cases c with
  | create_person email hash name a =>
      obtain ⟨hactor, -, rfl⟩ := h
      simp only [List.mem_cons, List.not_mem_nil, or_false] at hput
      obtain hput | hput := hput <;> cases hput
      · exact .actor_created a name hactor
      · exact .user_created a email hash hactor (by simp [view, Database.actor, Txn.Store.get_put_of_ne])
  | create_organization creator name slug o =>
      obtain ⟨horg, hmember, hpresent, rfl⟩ := h
      simp only [List.mem_cons, List.not_mem_nil, or_false] at hput
      obtain hput | hput | hput | hput := hput <;> cases hput
      · exact .organization_created o name slug creator rfl horg
      · exact .founder o creator name slug rfl horg hmember hpresent
  | change_member_role p o a role =>
      obtain rfl | ⟨x, hx, hleft, -, howner, hactive, rfl⟩ := h
      · exact absurd hput List.not_mem_nil
      · simp only [List.mem_cons, List.mem_append, List.not_mem_nil, or_false] at hput
        obtain hput | hput := hput <;> cases hput
        refine .member_changed p o a x _ _ rfl hactive hx hleft hleft (.role role) ?_
        -- An owner stays one, or the operation has seen another.
        intro ho
        by_cases hrole : role = .owner
        · obtain ⟨y, hy, hstatus, -⟩ := Database.activeOwner_iff.mp ho
          cases hx.symm.trans hy
          exact .inl ⟨hrole, hstatus⟩
        · exact .inr (howner ho hrole)
  | suspend_member p o a =>
      obtain ⟨x, hx, hstatus, howner, hactive, rfl⟩ := h
      simp only [List.mem_cons, List.mem_append, List.not_mem_nil, or_false] at hput
      obtain hput | hput := hput <;> cases hput
      refine .member_changed p o a x _ _ rfl hactive hx (by simp [hstatus]) (by simp)
        (.suspended hstatus) ?_
      intro ho
      obtain ⟨y, hy, -, hrole⟩ := Database.activeOwner_iff.mp ho
      cases hx.symm.trans hy
      exact .inr (howner hrole)
  | reactivate_member p o a =>
      obtain ⟨x, hx, hstatus, hactive, rfl⟩ := h
      simp only [List.mem_cons, List.mem_append, List.not_mem_nil, or_false] at hput
      obtain hput | hput := hput <;> cases hput
      refine .member_changed p o a x _ _ rfl hactive hx (by simp [hstatus]) (by simp)
        (.reactivated hstatus) ?_
      intro ho
      -- Who is suspended is no active owner.
      obtain ⟨y, hy, hstatus', -⟩ := Database.activeOwner_iff.mp ho
      cases hx.symm.trans hy
      simp [hstatus] at hstatus'
  | leave_service a =>
      obtain ⟨hpersonal, x, hx, hp, rfl⟩ := (h.puts k r).mp hput
      exact .departed a k x rfl h.present h.owners hpersonal hx hp
  | create_team p o name t =>
      obtain ⟨hnew, hactive, rfl⟩ := h
      simp only [List.mem_cons, List.mem_append, List.not_mem_nil, or_false] at hput
      obtain hput | hput := hput <;> cases hput
      exact .team_created p t _ hactive hnew
  | add_team_member p o t a role =>
      obtain ⟨hnew, hteam, hactive, -, rfl⟩ := h
      simp only [List.mem_cons, List.mem_append, List.not_mem_nil, or_false] at hput
      obtain hput | hput := hput <;> cases hput
      exact .team_member_added t a o role hteam hnew hactive
  | change_team_member_role p o t a role =>
      obtain rfl | ⟨x, hx, -, -, -, rfl⟩ := h
      · exact absurd hput List.not_mem_nil
      · simp only [List.mem_cons, List.mem_append, List.not_mem_nil, or_false] at hput
        obtain hput | hput := hput <;> cases hput
        exact .team_member_changed t a x role hx
  | remove_team_member p o t a =>
      obtain ⟨x, hx, -, -, rfl⟩ := h
      simp only [List.mem_cons, List.mem_append, List.not_mem_nil, or_false] at hput
      obtain hput | hput := hput <;> cases hput
      exact .team_member_removed t a x hx
  | create_channel p o scope name ch =>
      obtain ⟨hnew, hteam, hactive, rfl⟩ := h
      simp only [List.mem_cons, List.mem_append, List.not_mem_nil, or_false] at hput
      obtain hput | hput := hput <;> cases hput
      exact .channel_created p ch o scope name hactive hteam hnew
  | add_channel_member p o ch a =>
      obtain ⟨hnew, hchannel, hpresent, -, rfl⟩ := h
      simp only [List.mem_cons, List.mem_append, List.not_mem_nil, or_false] at hput
      obtain hput | hput := hput <;> cases hput
      exact .channel_member_added p ch a o rfl hnew hchannel hpresent
  | post_message o ch sender id body =>
      obtain ⟨m, -, ⟨-, -, x, hsent⟩ | ⟨-, -, rfl⟩⟩ := h
      -- A post that was sent before writes nothing.
      · have hmem := hsent.writes ▸ hput
        simp only [List.mem_cons, List.not_mem_nil, or_false] at hmem
        obtain hmem | hmem := hmem <;> cases hmem
        · exact .channel_counted o ch sender id body m x rfl hsent
        · exact .message_sent o ch sender id body m x rfl hsent
      · exact absurd hput List.not_mem_nil
  | create_invite p o token expires n i =>
      obtain ⟨t, hash, rfl, hnew, hmax, -, hactive, rfl⟩ := h
      simp only [List.mem_cons, List.mem_append, List.not_mem_nil, or_false] at hput
      obtain hput | hput := hput <;> cases hput
      exact .invite_created p i _ hactive hnew rfl rfl hmax ⟨t, expires, rfl⟩
  | revoke_invite p o i =>
      obtain rfl | ⟨i, x, -, hx, -, hrevoked, -, -, rfl⟩ := h
      · exact absurd hput List.not_mem_nil
      · simp only [List.mem_cons, List.mem_append, List.not_mem_nil, or_false] at hput
        obtain hput | hput := hput <;> cases hput
        exact .invite_revoked i x _ _ hx hrevoked
  | accept_invite hash email pw name a =>
      obtain ⟨i, x, hx, hopen, hactor, -, hmember, -, rfl⟩ := h
      simp only [List.mem_cons, List.not_mem_nil, or_false] at hput
      obtain hput | hput | hput | hput | hput := hput <;> cases hput
      · exact .invite_used i x _ hx hopen.uses hopen.revoked
      · exact .actor_created a name hactor
      · exact .user_created a email pw hactor (by simp [view, Database.actor, Txn.Store.get_put_of_ne])
      · exact .admitted _ a hash email pw name rfl ⟨i, x, hx, rfl⟩ hactor hmember
  | sign_in email verify token expires i =>
      obtain ⟨t, hash, -, a, hpresent, huser, hnew, rfl⟩ := h
      cases List.mem_singleton.mp hput
      exact .session_opened i _ ⟨email, verify, token, expires, rfl⟩ hnew hpresent huser
  | revoke_session a hash =>
      obtain ⟨i, x, now, hx, rfl⟩ := h
      cases List.mem_singleton.mp hput
      exact .session_revoked i x now ⟨a, hash, rfl⟩ hx
  | messages_before a o ch before limit => cases h; exact absurd hput List.not_mem_nil
  | messages_after a o ch after limit => cases h; exact absurd hput List.not_mem_nil
  | invite_is_usable hash => cases h; exact absurd hput List.not_mem_nil
  | resolve_session hash => cases h; exact absurd hput List.not_mem_nil
  | me a => cases h; exact absurd hput List.not_mem_nil

/-- A commit leaves a row alone, or has an effect on it: how an invariant of the next state begins.
-/
theorem CommitSpec.effect_or_same (h : CommitSpec guarded q ws reply db) (k : Key) :
    (view ws db).rows.get k = db.rows.get k ∨ Effect guarded q ws db k ((view ws db).rows.get k) :=
  (view_get ws db k).imp_right h.effect

/-- A row of the new state is an old one, or the effect of the commit. -/
theorem CommitSpec.effect_or_old (h : CommitSpec guarded q ws reply db) {k : Key} {y : Row k}
    (hy : (view ws db).rows.get k = some y) :
    db.rows.get k = some y ∨ Effect guarded q ws db k (some y) :=
  hy ▸ (h.effect_or_same k).imp_left Eq.symm

/-! ## The state after a change of one row -/

section Changes

variable {p : ActorId} {o : OrganizationId} {e : Event} {k : Key} {r : Option (Row k)}

/-- The row that changes, when a commit changes one row and records one event. -/
theorem Change.row (h : Change ws db p o e [.put k r]) : (view ws db).rows.get k = r := by
  refine view_get_of_put (by simp [h.writes]) ?_
  intro r' hr'
  simpa [h.writes] using hr'

/-- Every other row is as it was. -/
theorem Change.other (h : Change ws db p o e [.put k r]) {k' : Key} (hne : k' ≠ k) :
    (view ws db).rows.get k' = db.rows.get k' := by
  refine view_get_of_untouched fun r' hr' => ?_
  simp only [h.writes, List.singleton_append, List.mem_cons, List.not_mem_nil, or_false] at hr'
  obtain hr' | hr' := hr' <;> cases hr'
  exact hne rfl

/-- The one record of such a commit. -/
theorem Change.logs_eq (h : Change ws db p o e [.put k r]) : logs ws = [⟨o, p, e⟩] := by
  rw [h.writes]
  rfl

theorem Change.mem_log (h : Change ws db p o e [.put k r]) {row : AuditRow}
    (hrow : Write.log row ∈ ws) : row = ⟨o, p, e⟩ := by
  rw [← mem_logs, h.logs_eq] at hrow
  exact List.mem_singleton.mp hrow

end Changes

/-! ## The state after a departure -/

section Departures

variable {now : Instant} {a : ActorId}

/-- What a departure makes of a row about the person who leaves: each is written once, in the one
way that `departing` says. -/
theorem Departure.view_of_person (h : Departure ws db guarded now a) {k : Key} {x : Row k}
    (hk : k.personal = true) (hx : db.rows.get k = some x) (hp : person k x = some a) :
    (view ws db).rows.get k = departing now k x := by
  refine view_get_of_put ((h.puts k _).mpr ⟨hk, x, hx, hp, rfl⟩) ?_
  intro r' hr'
  obtain ⟨-, y, hy, -, rfl⟩ := (h.puts k r').mp hr'
  cases hx.symm.trans hy
  rfl

/-- A departure leaves every other row alone, those of the others and those that are not personal.
-/
theorem Departure.view_of_other (h : Departure ws db guarded now a) {k : Key}
    (hk : k.personal = true → ∀ x, db.rows.get k = some x → person k x ≠ some a) :
    (view ws db).rows.get k = db.rows.get k := by
  refine view_get_of_untouched ?_
  intro r hr
  obtain ⟨hpersonal, x, hx, hp, -⟩ := (h.puts k r).mp hr
  exact hk hpersonal x hx hp

end Departures

end Fukulow
