/-
The foreign keys and the checks of `migrations/*.up.sql`, in every committed state.

`References` lists the foreign keys that other proofs lean on; `ForeignKeys` adds the rest. Each
is shown of a commit by what the commit found. The sender of a message needs the run as well:
the message's insert read the sender's membership in a state before its commit, and memberships
stay (`senders_kept`).

A `CHECK` is a test of the inserting statement, so a row is as its table wants it when it comes
in (`fitting_body`); an update changes no tested column but the counters, whose bounds the
commit itself has.
-/
import Fukulow.Numbering
import Fukulow.PostAccess
import Fukulow.References
import Fukulow.SigningIn
import Fukulow.Txn.Endings
import Fukulow.Uniqueness

set_option autoImplicit false

namespace Fukulow

open Txn (Gate LockMode)

/-! ## Foreign keys -/

/-- Every foreign key of the schema. Those of `References` are the ones that the operations are
proved with; the rest is only shown here. -/
structure ForeignKeys (db : Database) : Prop extends References db where
  user : ∀ a r, db.user a = some r → ∃ x, db.actor a = some x ∧ x.type = .human
  teamMemberActor : ∀ t a r, db.teamMember t a = some r → db.member r.organization_id a ≠ none
  inviteTarget : ∀ i r, db.invite i = some r → ∀ t, r.target = .team t →
    ∃ x, db.team t = some x ∧ x.organization_id = r.organization_id
  creator : ∀ i r, db.invite i = some r → db.actor r.created_by_actor_id ≠ none
  session : ∀ i r, db.session i = some r → db.user r.actor_id ≠ none
  sender : ∀ id r, db.message id = some r → db.actor r.sender_actor_id ≠ none
  audited : ∀ row ∈ db.audit_events,
    db.organization row.organization_id ≠ none ∧ db.actor row.actor_id ≠ none

theorem ForeignKeys.empty : ForeignKeys Database.empty where
  toReferences := .empty
  user _ _ h := by cases h
  teamMemberActor _ _ _ h := by cases h
  inviteTarget _ _ h := by cases h
  creator _ _ h := by cases h
  session _ _ h := by cases h
  sender _ _ h := by cases h
  audited _ h := absurd h List.not_mem_nil

section Commits

variable {guarded : Bool} {q : Request} {ws : List Write} {reply : Reply} {db : Database}

/-- An actor stays, and keeps its type: a departure takes the name and sets the time, but leaves
the row. So a reference to an actor never dangles, whoever leaves. -/
theorem CommitSpec.actor_stays (h : CommitSpec guarded q ws reply db) {a : ActorId} {r : ActorRow}
    (hr : db.actor a = some r) : ∃ r', (view ws db).actor a = some r' ∧ r'.type = r.type := by
  rcases h.effect_or_same (.actor a) with hsame | heffect
  · exact ⟨r, hsame.trans hr, rfl⟩
  · generalize hx : (view ws db).rows.get (.actor a) = x at heffect
    cases heffect with
    | actor_created _ _ hnone => cases hnone.symm.trans hr
    | departed b _ y _ _ _ _ hy _ =>
        -- The row a departure leaves has the type it had.
        cases hy.symm.trans hr
        exact ⟨_, hx, rfl⟩

/-- The actor of a new user is new, and human. `create_person` writes both rows, and no other call
adds an actor, so the user's foreign key is on a row of the same commit. -/
theorem CommitSpec.new_actor (h : CommitSpec guarded q ws reply db) {a : ActorId}
    (hnone : db.actor a = none) (hsome : (view ws db).actor a ≠ none) :
    ∃ x, (view ws db).actor a = some x ∧ x.type = .human := by
  obtain ⟨x, hx⟩ := Option.ne_none_iff_exists'.mp hsome
  refine ⟨x, hx, ?_⟩
  rcases h.effect_or_old hx with hold | heffect
  · cases hnone.symm.trans hold
  · generalize hy : some x = y at heffect
    cases heffect with
    | actor_created =>
        cases hy
        rfl
    | departed _ _ z _ _ _ _ hz _ => cases hnone.symm.trans hz

/-- A departure takes the sessions of the one who leaves along. A session that is there afterwards
is somebody else's, whether it was there before or not. -/
theorem Departure.session_gone {now : Instant} {a : ActorId} (h : Departure ws db guarded now a)
    {i : SessionId} {r : SessionRow} (hr : (view ws db).session i = some r) : r.actor_id ≠ a := by
  intro ha
  by_cases hperson : ∃ x, db.session i = some x ∧ x.actor_id = a
  · obtain ⟨x, hx, hxa⟩ := hperson
    have hview := h.view_of_person (k := .session i) rfl hx (congrArg some hxa)
    cases hview.symm.trans hr
  · -- A session that a departure does not touch is as it was, and was not theirs.
    have hview := h.view_of_other (k := .session i) fun _ x hx hp =>
      hperson ⟨x, hx, Option.some.inj hp⟩
    exact hperson ⟨r, hview.symm.trans hr, ha⟩

/-- A user is deleted by its own departure only. This is what a session's foreign key depends on:
the commit that deletes the user is one whose every write is known. -/
theorem CommitSpec.user_deleted (h : CommitSpec guarded q ws reply db) {a : ActorId}
    (hsome : db.user a ≠ none) (hnone : (view ws db).user a = none) :
    q.call = .leave_service a := by
  rcases h.effect_or_same (.user a) with hsame | heffect
  · exact absurd (hsame.symm.trans hnone) hsome
  · rw [show (view ws db).rows.get (.user a) = none from hnone] at heffect
    generalize hx : (none : Option (Row (.user a))) = x at heffect
    cases heffect with
    | user_created => cases hx
    | departed b _ y hq _ _ _ _ hb =>
        cases hb
        exact hq

/-- Whose organization and performer a record names: both foreign keys of `audit_events`. -/
def Recorded (db : Database) (row : AuditRow) : Prop :=
  db.organization row.organization_id ≠ none ∧ db.actor row.actor_id ≠ none

/-- What a record names stays, as neither organizations nor actors are ever deleted. Old records
need nothing else. -/
theorem CommitSpec.recorded_stays (h : CommitSpec guarded q ws reply db) {row : AuditRow}
    (hrow : Recorded db row) : Recorded (view ws db) row :=
  ⟨h.stays rfl hrow.1, h.stays rfl hrow.2⟩

/-- The record of a change by an active member names the organization of that membership and its
actor, and both were there for the membership's own foreign keys. -/
theorem Change.recorded {p : ActorId} {o : OrganizationId} {e : Event} {k : Key} {r : Option (Row k)}
    (h : Change ws db p o e [.put k r]) (hr : References db) {row : AuditRow}
    (hrow : Write.log row ∈ ws) : Recorded db row := by
  cases h.mem_log hrow
  obtain ⟨x, hx, -⟩ := Database.active_iff.mp h.active
  exact hr.member o p x hx

/-- The records of a departure name the one who leaves and, each, the organization of a membership,
of a team or of a channel. Which of them it is depends on the event, so there is a case for each of
the three. -/
theorem Departure.recorded {now : Instant} {a : ActorId} (h : Departure ws db guarded now a)
    (hr : References db) {row : AuditRow} (hrow : Write.log row ∈ ws) : Recorded db row := by
  obtain ⟨ha, hrec⟩ := (h.records row).mp hrow
  obtain ⟨y, hy, -⟩ := h.present
  refine ⟨?_, by rw [ha]; simp [hy]⟩
  obtain ⟨o, p, e⟩ := row
  cases e with
  | member_left b =>
      obtain ⟨rfl, x, hx⟩ := hrec
      exact (hr.member o b x hx).1
  | team_member_removed b t reason =>
      obtain ⟨rfl, -, x, hx, rfl⟩ := hrec
      obtain ⟨z, hz, horg⟩ := hr.teamMember t b x hx
      exact horg ▸ hr.team t z hz
  | channel_member_left b c =>
      obtain ⟨rfl, x, hx, rfl⟩ := hrec
      obtain ⟨-, z, hz, horg, -⟩ := hr.channelMember c b x hx
      exact horg ▸ (hr.channel c z hz).1
  | _ => cases hrec

/-- **What a record names is there** once the record is. For most calls it was there before; only
`create_organization` and `accept_invite` write a record about a row that they add themselves. -/
theorem CommitSpec.recorded (h : CommitSpec guarded q ws reply db) (hr : References db)
    {row : AuditRow} (hrow : Write.log row ∈ ws) : Recorded (view ws db) row := by
  have hspec := h
  -- One case per call; `h` then says what the call wrote, and the records among it.
  obtain ⟨c, tx⟩ := q
  cases c with
  | create_organization creator name slug o =>
      -- The organization is the one the call adds, so only its creator was there before.
      obtain ⟨-, -, hpresent, hws⟩ := h
      obtain ⟨y, hy, -⟩ := hpresent
      have hactor : (view ws db).actor creator ≠ none := hspec.stays rfl (by simp [hy])
      have horg : (view ws db).rows.get (.organization o) = some ⟨name, slug⟩ :=
        view_get_of_put (by simp [hws]) (by simp [hws])
      simp only [hws, List.mem_cons, List.not_mem_nil, or_false] at hrow
      rcases hrow with hrow | hrow | hrow | hrow <;> cases hrow
      all_goals exact ⟨by simp [horg], hactor⟩
  | accept_invite hash email pw name a =>
      -- The performer is the actor who comes in with this very call.
      obtain ⟨i, x, hx, -, -, -, -, -, hws⟩ := h
      have hactor : (view ws db).rows.get (.actor a) = some ⟨.human, some name, none⟩ :=
        view_get_of_put (by simp [hws]) (by simp [hws])
      simp only [hws, List.mem_cons, List.not_mem_nil, or_false] at hrow
      rcases hrow with hrow | hrow | hrow | hrow | hrow <;> cases hrow
      exact ⟨hspec.stays rfl (hr.invite i x hx), by simp [hactor]⟩
  | change_member_role p o a role =>
      rcases h with rfl | ⟨x, -, -, -, -, hchange⟩
      · cases hrow
      · exact hspec.recorded_stays (hchange.recorded hr hrow)
  | suspend_member p o a =>
      obtain ⟨x, -, -, -, hchange⟩ := h
      exact hspec.recorded_stays (hchange.recorded hr hrow)
  | reactivate_member p o a =>
      obtain ⟨x, -, -, hchange⟩ := h
      exact hspec.recorded_stays (hchange.recorded hr hrow)
  | leave_service a => exact hspec.recorded_stays (Departure.recorded h hr hrow)
  | create_team p o name t => exact hspec.recorded_stays (h.2.recorded hr hrow)
  | add_team_member p o t a role =>
      obtain ⟨-, -, -, hchange⟩ := h
      exact hspec.recorded_stays (hchange.recorded hr hrow)
  | change_team_member_role p o t a role =>
      rcases h with rfl | ⟨x, -, -, -, hchange⟩
      · cases hrow
      · exact hspec.recorded_stays (hchange.recorded hr hrow)
  | remove_team_member p o t a =>
      obtain ⟨x, -, -, hchange⟩ := h
      exact hspec.recorded_stays (hchange.recorded hr hrow)
  | create_channel p o scope name c => exact hspec.recorded_stays (h.2.2.recorded hr hrow)
  | add_channel_member p o c a =>
      obtain ⟨-, -, -, hchange⟩ := h
      exact hspec.recorded_stays (hchange.recorded hr hrow)
  | create_invite p o token expires n i =>
      obtain ⟨t, hash, -, -, -, -, hchange⟩ := h
      exact hspec.recorded_stays (hchange.recorded hr hrow)
  | revoke_invite p o i =>
      rcases h with rfl | ⟨i, x, -, -, -, -, -, hchange⟩
      · cases hrow
      · exact hspec.recorded_stays (hchange.recorded hr hrow)
  | create_person email hash name a =>
      obtain ⟨-, -, hws⟩ := h
      simp [hws] at hrow
  | post_message o c sender id body =>
      obtain ⟨m, -, ⟨-, -, x, hsent⟩ | ⟨-, -, hws⟩⟩ := h
      · simp [hsent.writes] at hrow
      · simp [hws] at hrow
  | sign_in email verify token expires i =>
      obtain ⟨t, hash, -, b, -, -, -, hws⟩ := h
      simp [hws] at hrow
  | revoke_session a hash =>
      obtain ⟨i, x, now, -, hws⟩ := h
      simp [hws] at hrow
  | messages_before | messages_after | invite_is_usable | resolve_session | me =>
      cases h
      cases hrow

/-- A new invite brings people into the organization, and was created by who asked for it. So it
has no team to refer to, and its creator is an active member. -/
theorem CommitSpec.new_invite (h : CommitSpec guarded q ws reply db) {p : ActorId}
    {o : OrganizationId} {token : Option (Text × TokenHash)} {expires : Instant} {n : ℤ}
    {i : InviteId} {r : InviteRow} (hq : q.call = .create_invite p o token expires n i)
    (hr : (view ws db).invite i = some r) :
    r.target = .organization ∧ r.created_by_actor_id = p := by
  rw [CommitSpec, hq] at h
  obtain ⟨t, hash, -, -, -, -, hchange⟩ := h
  cases hchange.row.symm.trans hr
  exact ⟨rfl, rfl⟩

/-- The sender of a message that a commit adds is an actor. A commit cannot show this of itself:
the membership of the sender was read in a state before it. -/
def Senders (ws : List Write) (db : Database) : Prop :=
  ∀ id r, db.message id = none → (view ws db).message id = some r → db.actor r.sender_actor_id ≠ none

/-- **Every commit keeps the foreign keys.** A row that was there refers to what was there and has
stayed, and a row that is new refers to what its call has found. Sessions are the one place where
something referred to is deleted, and there the session goes too. -/
theorem CommitSpec.foreign_keys (h : CommitSpec guarded q ws reply db) (hk : ForeignKeys db)
    (hsender : Senders ws db) : ForeignKeys (view ws db) where
  toReferences := h.references hk.toReferences
  user a r hu := by
    rcases h.effect_or_old hu with hold | heffect
    · obtain ⟨x, hx, hhuman⟩ := hk.user a r hold
      obtain ⟨x', hx', htype⟩ := h.actor_stays hx
      exact ⟨x', hx', htype.trans hhuman⟩
    · generalize hx : some r = x at heffect
      cases heffect with
      -- The user and its actor come with one commit.
      | user_created _ email hash hnone hsome => exact h.new_actor hnone hsome
      | departed => cases hx
  teamMemberActor t a r hm := by
    rcases h.effect_or_old hm with hold | heffect
    · exact h.stays rfl (hk.teamMemberActor t a r hold)
    · generalize hx : some r = x at heffect
      cases heffect with
      -- Only a member of the organization is added to its teams.
      | team_member_added _ _ o role _ _ hactive =>
          cases hx
          obtain ⟨y, hy, -⟩ := Database.active_iff.mp hactive
          exact h.stays rfl (by simp [hy])
      | team_member_changed _ _ y role hy =>
          cases hx
          exact h.stays rfl (hk.teamMemberActor t a y hy)
      | team_member_removed => cases hx
      | departed => cases hx
  inviteTarget i r hi t ht := by
    have hkeep : ∀ o, (∃ x, db.team t = some x ∧ x.organization_id = o) →
        ∃ x, (view ws db).team t = some x ∧ x.organization_id = o :=
      fun o ⟨x, hx, ho⟩ => ⟨x, h.team_stays hx, ho⟩
    rcases h.effect_or_old hi with hold | heffect
    · exact hkeep _ (hk.inviteTarget i r hold t ht)
    · generalize hx : some r = x at heffect
      cases heffect with
      | invite_created p _ y _ _ _ _ _ hq =>
          cases hx
          obtain ⟨token, expires, hq⟩ := hq
          -- A new invite has no team.
          cases ((h.new_invite hq hi).1.symm.trans ht)
      | invite_revoked _ y _ _ hy =>
          cases hx
          exact hkeep _ (hk.inviteTarget i y hy t ht)
      | invite_used _ y _ hy =>
          cases hx
          exact hkeep _ (hk.inviteTarget i y hy t ht)
      | departed _ _ _ _ _ _ hpersonal => cases hpersonal
  creator i r hi := by
    rcases h.effect_or_old hi with hold | heffect
    · exact h.stays rfl (hk.creator i r hold)
    · generalize hx : some r = x at heffect
      cases heffect with
      | invite_created p _ y hactive _ _ _ _ hq =>
          cases hx
          obtain ⟨token, expires, hq⟩ := hq
          obtain ⟨z, hz, -⟩ := Database.active_iff.mp hactive
          exact h.stays rfl ((h.new_invite hq hi).2 ▸ (hk.member _ p z hz).2)
      | invite_revoked _ y _ _ hy =>
          cases hx
          exact h.stays rfl (hk.creator i y hy)
      | invite_used _ y _ hy =>
          cases hx
          exact h.stays rfl (hk.creator i y hy)
      | departed _ _ _ _ _ _ hpersonal => cases hpersonal
  session i r hs := by
    have hkeep : db.user r.actor_id ≠ none → (view ws db).user r.actor_id ≠ none := by
      intro huser hnone
      -- Only a departure deletes the user, and the session would have gone with it.
      exact Departure.session_gone (h.departure (h.user_deleted huser hnone)) hs rfl
    rcases h.effect_or_old hs with hold | heffect
    · exact hkeep (hk.session i r hold)
    · generalize hx : some r = x at heffect
      cases heffect with
      | session_opened _ y _ _ _ huser =>
          cases hx
          exact hkeep huser
      | session_revoked _ y now _ hy =>
          cases hx
          exact hkeep (hk.session i y hy)
      | departed => cases hx
  sender id r hm := by
    cases hold : db.message id with
    -- A new message has the sender that was asked for.
    | none => exact h.stays rfl (hsender id r hold hm)
    | some x =>
        cases (h.message_stays hold).symm.trans hm
        exact h.stays rfl (hk.sender id _ hold)
  audited row hrow := by
    rw [view_audit] at hrow
    -- Records are only ever added.
    rcases List.mem_append.mp hrow with hold | hnew
    · exact h.recorded_stays (hk.audited row hold)
    · exact h.recorded hk.toReferences (mem_logs.mp hnew)

end Commits

/-! ## The sender of a message -/

/-- The gate of a post, asking for a membership only. -/
def senderGate (o : OrganizationId) (sender : ActorId) : Gate Database Write Resource :=
  { postGate o sender with good := fun db => db.member o sender ≠ none }

/-- What is known of a post in flight: once its message can be inserted, its sender has had a
membership, and has it still. -/
def SenderKept (x : Txn.Task Database Write Resource LockMode Request Reply) (v : World) : Prop :=
  ∀ o c sender id body, x.call.call = .post_message o c sender id body →
    (senderGate o sender).Kept Reply.is_posted x v

/-- Memberships stay, so no post needs to hold on to its sender's. In flight a call starts with
nothing, reads the membership behind its gate, and keeps it through its own actions and through
every ending of another call. -/
theorem senders_kept {s : System} (h : (engine anyCall).ReachableIn (fun _ => True) World.empty s) :
    ∀ t x, s.tasks.get t = some x → SenderKept x s.world := by
  refine Txn.Engine.ReachableIn.in_flight (J := SenderKept) ?_ ?_ ?_ h
  · -- A call that starts holds nothing behind the gate yet.
    rintro ⟨call, tx⟩ v o c sender id body rfl
    refine Txn.Gate.Kept.start ?_ ?_
    · change (senderGate o sender).Through _ ((post_message tx o c sender id body).answer _) _ _
      rw [Txn.Gate.through_answer]
      refine Txn.Gate.through_weaken through_post_message ?_ False.elim ?_
      · intro db hactive hnone
        obtain ⟨r, hr, -⟩ := Database.active_iff.mp hactive
        cases hnone.symm.trans hr
      · rintro G G' H r - hH ⟨m, hm⟩
        cases hm
        exact hH ⟨m, rfl⟩
    · rintro ⟨r, m⟩ hmem ⟨i, rfl⟩
      cases List.mem_singleton.mp hmem
  · -- An action of the call itself leaves its sender's membership alone.
    intro x x' v hx hacts o c sender id body hcall
    have hsame : x'.call = x.call := by cases hacts <;> rfl
    refine (hx o c sender id body (hsame ▸ hcall)).acts ?_ hacts
    intro ws db hsafe hgood
    have hget : (view ws db).rows.get (.member o sender) = db.rows.get (.member o sender) :=
      view_get_of_untouched fun r hr => hsafe _ hr r rfl
    intro hnone
    exact hgood (hget.trans hnone)
  · -- So does whatever another call ends with.
    intro s _ hrun t x out t' y _ hx hends _ hJ o c sender id body hcall
    refine (hJ o c sender id body hcall).other fun _ hmember => ?_
    have hg := (reachable_safe hrun.reachable).guarantee (sound false) hx hends
    cases hends with
    | commits => exact hg.2.1.stays rfl hmember
    | fails | aborts => exact hmember

/-- A message that a call adds was posted by it, in the name of the sender it was called with. A
post that is repeated finds its message stored and writes nothing, so it has added none. -/
theorem CommitSpec.new_message {q : Request} {ws : List Write} {reply : Reply} {db : Database}
    (h : CommitSpec false q ws reply db) {id : MessageId} {r : MessageRow}
    (hnone : db.message id = none) (hr : (view ws db).message id = some r) :
    ∃ c sender body, q.call = .post_message r.organization_id c sender id body
      ∧ r.sender_actor_id = sender ∧ reply.is_posted := by
  rcases h.effect_or_old hr with hold | heffect
  · cases hnone.symm.trans hold
  · generalize hx : some r = x at heffect
    cases heffect with
    | message_sent o c sender _ body m y hq hsent =>
        cases hx
        rw [CommitSpec, hq] at h
        -- A post that finds its message already stored writes nothing, so this one inserted it.
        obtain ⟨m', ⟨rfl, rfl, rfl⟩, ⟨hreply, -, y', hsent'⟩ | ⟨-, -, hws⟩⟩ := h
        · have hput : Write.put (.message id) (some r) ∈ ws := by simp [hsent.writes]
          rw [hsent'.writes] at hput
          simp only [List.mem_cons, List.not_mem_nil, or_false] at hput
          rcases hput with hput | hput
          · cases hput
          · cases hput
            exact ⟨_, _, body, hq, rfl, _, hreply⟩
        · cases hws.symm.trans hsent.writes
    | departed _ _ _ _ _ _ hpersonal => cases hpersonal

/-- **The foreign keys hold**, in every committed state of every run, however the calls overlap. By
induction over the endings: only a commit changes anything, and it keeps them; for the sender of a
message the call in flight has kept what it read. -/
theorem foreign_keys_hold {s : System} (h : (engine anyCall).Reachable World.empty s) :
    ForeignKeys s.world.store := by
  have hv : (allRules false).valid World.empty := Consistent.empty
  have hrun : (engine anyCall).ReachableIn (fun _ => True) World.empty s :=
    Txn.Engine.Reachable.within _ (fun _ => trivial) h
  refine ((sound false).invariant (P := fun _ => True)
    (fun s _ => Txn.Rules.clear_of_presumes presumes_nothing s) hv
    (I := fun v => ForeignKeys v.store) ForeignKeys.empty ?_ hrun).2
  intro s _ hrun _ t x out hx hends hg hI
  cases hends with
  | fails | aborts => exact hI
  | commits hp =>
      refine hg.2.1.foreign_keys hI fun id r hnone hr => ?_
      -- The post has seen the sender's membership, and memberships are never deleted.
      obtain ⟨c, sender, body, hq, rfl, hposted⟩ := hg.2.1.new_message hnone hr
      have hmember := (senders_kept hrun t x hx _ c _ id body hq).good hp hposted
      obtain ⟨y, hy⟩ := Option.ne_none_iff_exists'.mp hmember
      exact (hI.member _ _ y hy).2

/-- A message whose sender leaves afterwards: the actor it refers to has no name any more, but is
there. -/
theorem foreign_keys_hold_sender_gone : ∃ s : System, (engine anyCall).Reachable World.empty s
    ∧ s.world.store.departed ⟨3⟩ = true
    ∧ (s.world.store.message ⟨0x019a00000000700080000000000000aa, by decide⟩).isSome = true
    ∧ ForeignKeys s.world.store := by
  obtain ⟨s, hs, hcheck⟩ := reachable_of_serve 100
    (channelJoined ++ [⟨joinedPost, ⟨0, 7⟩⟩, ⟨.leave_service ⟨3⟩, ⟨0, 8⟩⟩])
    (fun s => s.world.store.departed ⟨3⟩
      && (s.world.store.message ⟨0x019a00000000700080000000000000aa, by decide⟩).isSome)
    (by decide +kernel)
  rw [Bool.and_eq_true] at hcheck
  exact ⟨s, hs, hcheck.1, hcheck.2, foreign_keys_hold hs⟩

/-! ## Checks -/

/-- What the `CHECK`s of its table ask of a row, and what its columns can hold. -/
def Fits : (k : Key) → Row k → Prop
  | .actor _, r => ∀ name, r.display_name = some name → storable name = true
  | .user _, r => storable r.email = true ∧ storable r.password_hash = true
  | .organization _, r =>
      storable r.name = true ∧ storable r.slug = true ∧ slug_format r.slug = true
  | .member _ _, r => r.display_name = none
  | .team _, r => storable r.name = true
  | .channel _, r => storable r.name = true ∧ 1 ≤ r.name.length ∧ r.name.length ≤ 80
      ∧ r.next_message_seq ≤ bigint_max
  | .message _, r => storable r.body = true ∧ 1 ≤ r.body.length ∧ r.body.length ≤ 4000
      ∧ 1 ≤ r.channel_seq ∧ r.channel_seq ≤ bigint_max
  | .invite _, r => storable r.token_hash.as_str = true
      ∧ 0 < r.max_uses ∧ 0 ≤ r.used_count ∧ r.used_count ≤ r.max_uses
  | .session _, r => storable r.token_hash.as_str = true
  | .teamMember _ _, _ | .channelMember _ _, _ => True

/-- A key is hexadecimal digits, none of which is U+0000; the type carries that, so nothing has to
be checked where one is stored. -/
theorem storable_token_hash (h : TokenHash) : storable h.as_str = true := by
  have hnul : '\x00' ∉ h.as_str := fun hmem => absurd (h.lower _ hmem) (by decide)
  simpa [storable] using hnul

/-- A row that the call is there to add is as its table wants it. Updates are left out: an
operation takes what it updates as it found it. -/
def Fitting (c : Call) (u : Write) : Prop :=
  ∀ k r, u = .put k (some r) → c.creates k → Fits k r

/-- A record is no row of a table with an id, and is shown to fit by itself (`Event.fits`). -/
theorem fitting_log {c : Call} {row : AuditRow} : Fitting c (.log row) := by
  rintro k r ⟨⟩

/-- An insert fits when its row does, and this is what the test of the inserting statement has to
give. -/
theorem fitting_put {c : Call} {k : Key} {r : Row k} (h : Fits k r) : Fitting c (.put k (some r)) := by
  rintro k' r' heq -
  cases heq
  exact h

/-- Of a call that is not there to add such a row nothing is asked: what it puts there is an
update. -/
theorem fitting_other {c : Call} {k : Key} {r : Option (Row k)} (h : ¬ c.creates k) :
    Fitting c (.put k r) := by
  rintro k' r' heq hk
  cases heq
  exact absurd hk h

section Operations

variable {tx : Transaction} {s : Settings} {c : Call} {p : ActorId} {o : OrganizationId}

/-- The two inserts test their texts, the actor's name and the user's email and hash, before they
are made. -/
theorem emits_create_person {email hash name : Text} {a : ActorId} :
    (create_person s email hash name a).Emits (Fitting c) := by
  unfold create_person
  refine Txn.Prog.emits_bind (emits_lift (emits_insert fun db hok => fitting_put ?_)) fun _ => ?_
  · -- The statement is refused where the name cannot be stored.
    rintro _ ⟨⟩
    exact admitted_if hok
  refine Txn.Prog.emits_bind (Txn.Prog.emits_mapError.mpr ?_) fun _ => trivial
  refine emits_insert fun db hok => fitting_put ?_
  have hstorable := (admitted_else hok).1
  rwa [Bool.and_eq_true] at hstorable

/-- A membership is inserted without a name of its own, by whoever inserts it. -/
theorem emits_insert_member {r : MemberRow} {a : ActorId} {pkey : String}
    {admits : Database → Except SqlError Unit} {references : List Reference}
    (hr : r.display_name = none) :
    (insert (.member o a) r pkey admits [] references).Emits (Fitting c) :=
  emits_insert fun _ _ => fitting_put hr

/-- Name and slug are tested as the organization is inserted; the slug has a format too. The
membership of the creator and the two records follow. -/
theorem emits_create_organization {name slug : Text} :
    (create_organization tx p name slug o).Emits (Fitting c) := by
  unfold create_organization
  refine Txn.Prog.emits_bind (emits_lift emits_lock_actor) fun departed => ?_
  split
  · trivial
  · trivial
  refine Txn.Prog.emits_bind (Txn.Prog.emits_mapError.mpr ?_) fun _ => ?_
  · refine emits_insert fun db hok => fitting_put ?_
    obtain ⟨hstorable, hrest⟩ := admitted_else hok
    rw [Bool.and_eq_true] at hstorable
    exact ⟨hstorable.1, hstorable.2, admitted_if (admitted_else hrest).2⟩
  refine Txn.Prog.emits_bind (emits_lift (emits_insert_member rfl)) fun _ => ?_
  refine Txn.Prog.emits_bind (emits_lift (emits_event_write fitting_log)) fun _ => ?_
  exact Txn.Prog.emits_bind (emits_lift (emits_event_write fitting_log)) fun _ => trivial

/-- The name is tested as the team is inserted, which nothing else in the call depends on. -/
theorem emits_create_team {name : Text} {t : TeamId} :
    (create_team tx p o name t).Emits (Fitting c) := by
  unfold create_team
  refine Txn.Prog.emits_bind (emits_lift emits_lock_actor) fun _ => ?_
  refine Txn.Prog.emits_bind (emits_lift emits_lock_organization) fun found => ?_
  split
  · trivial
  refine Txn.Prog.emits_bind (emits_lift (emits_insert fun db hok => ?_)) fun _ => ?_
  · exact fitting_put (admitted_else hok).1
  · exact Txn.Prog.emits_bind (emits_lift (emits_event_write fitting_log)) fun _ => trivial

/-- A channel begins with no messages, and its name is tested for what it holds and for its length.
The two scopes differ in indexes, references and record, none of which the row's check looks at. -/
theorem emits_create_channel {scope : ChannelScope} {name : Text} {ch : ChannelId} :
    (create_channel tx p o scope name ch).Emits (Fitting c) := by
  unfold create_channel
  refine Txn.Prog.emits_bind (emits_lift emits_lock_actor) fun _ => ?_
  refine Txn.Prog.emits_bind (emits_lift emits_lock_organization) fun found => ?_
  split
  · trivial
  -- Both scopes come to the same insert, with their own indexes, references and record.
  have hinsert : ∀ (scope : ChannelScope) (indexes : List UniqueIndex) (references : List Reference)
      (e : Event), Txn.Prog.Emits (Fitting c)
        ((insert (.channel ch) ⟨o, scope, name, 0⟩ "channels_pkey"
          (fun db =>
            if !storable name then .error .invalidText
            else if !channels_insert (begin tx (.actor p)) db ⟨o, scope, name, 0⟩ then
              .error .insufficientPrivilege
            else admit_if (1 ≤ name.length && name.length ≤ 80) (.check "channels_name_check"))
          indexes references).mapError (fun e =>
            if e.constraint "channels_team_name_key"
                || e.constraint "channels_organization_name_key"
            then CreateChannelError.nameTaken else .database e) >>= fun _ =>
          (liftM (e.write (begin tx (.actor p)) o p) : Sql CreateChannelError Unit)
            >>= fun _ => pure ch) := by
    intro scope indexes references e
    refine Txn.Prog.emits_bind (Txn.Prog.emits_mapError.mpr ?_) fun _ =>
      Txn.Prog.emits_bind (emits_lift (emits_event_write fitting_log)) fun _ => trivial
    refine emits_insert fun db hok => fitting_put ?_
    obtain ⟨hstorable, hrest⟩ := admitted_else hok
    have hlength := admitted_if (admitted_else hrest).2
    simp only [Bool.and_eq_true, decide_eq_true_eq] at hlength
    exact ⟨hstorable, hlength.1, hlength.2, Nat.zero_le _⟩
  dsimp only
  split
  · exact hinsert _ _ _ _
  · refine Txn.Prog.emits_bind (emits_lift emits_select) fun _ => ?_
    refine Txn.Prog.emits_bind emits_ensure fun _ => ?_
    exact hinsert _ _ _ _

/-- An invite begins unused, and its insert tests that it can be used at all. So the uses are
within their bounds, and the key is one because it is a `TokenHash`. -/
theorem emits_create_invite {T : Type} {new_token : Unit → Option (T × TokenHash)}
    {expires_at : Instant} {n : ℤ} {i : InviteId} :
    (create_invite tx p o new_token expires_at n i).Emits (Fitting c) := by
  unfold create_invite
  refine Txn.Prog.emits_bind (emits_lift emits_lock_actor) fun _ => ?_
  refine Txn.Prog.emits_bind (emits_lift emits_lock_organization) fun found => ?_
  split
  · trivial
  refine Txn.Prog.emits_bind (emits_lift emits_authorize) fun access => ?_
  split
  · trivial
  · trivial
  split
  · trivial
  refine Txn.Prog.emits_bind (emits_lift ?_) fun inserted => ?_
  · unfold insert_from
    refine Txn.Prog.emits_bind emits_snapshot fun db => ?_
    split
    · refine Txn.Prog.emits_bind (emits_insert_row fun hok => fitting_put ?_) fun _ => trivial
      -- The last test of the insert is `max_uses`, and `used_count` starts at zero.
      have huses := admitted_if (admitted_else (admitted_else hok).2).2
      have hpos := of_decide_eq_true huses
      exact ⟨storable_token_hash _, hpos, le_rfl, hpos.le⟩
    · trivial
  split
  · trivial
  · trivial
  · exact Txn.Prog.emits_bind (emits_lift (emits_event_write fitting_log)) fun _ => trivial

/-- The use of the invite is an update, and the person who comes in is inserted as by
`create_person`. Its membership has no name. -/
theorem emits_accept_invite {hash : TokenHash} {email password_hash name : Text} {a : ActorId}
    (hc : ∀ i, ¬ c.creates (.invite i)) :
    (accept_invite tx hash email password_hash name a).Emits (Fitting c) := by
  unfold accept_invite
  refine Txn.Prog.emits_bind (emits_lift ?_) fun used => ?_
  · unfold use_invite
    refine Txn.Prog.emits_bind emits_snapshot fun db => ?_
    split
    · trivial
    · -- The invite is updated, and updates are not what is asked about here.
      exact Txn.Prog.emits_bind (emits_update_row fun _ => fitting_other (hc _)) fun _ => trivial
  split
  · trivial
  dsimp only
  split
  · trivial
  refine Txn.Prog.emits_bind (Txn.Prog.emits_mapError.mpr emits_create_person) fun _ => ?_
  refine Txn.Prog.emits_bind (emits_lift (emits_insert_member rfl)) fun _ => ?_
  exact Txn.Prog.emits_bind (emits_lift (emits_event_write fitting_log)) fun _ => trivial

/-- The new version of a row that was updated is one that `set` gives, of some version of the row
in some state. The row may have changed between the read and the lock, and is then read again. -/
theorem returns_update {k : Key} {visible : Database → Row k → Bool} {matches_ : Row k → Bool}
    {set : Database → Row k → Except SqlError (Row k)} :
    (update k visible matches_ set).Returns fun r => ∀ r', r = some r' →
      ∃ db old, set db old = .ok r' := by
  refine Txn.Prog.returns_bind fun db => ?_
  unfold update_row
  split
  · rintro r' ⟨⟩
  split
  · refine Txn.Prog.returns_bind fun newest => ?_
    split
    · rintro r' ⟨⟩
    split
    · split
      · trivial
      · rename_i new hset
        rintro r' ⟨⟩
        exact ⟨_, _, hset⟩
    · rintro r' ⟨⟩
  · rintro r' ⟨⟩

/-- A message is numbered by the counter that the update has given back, so what bounds the number
is the test of an earlier statement. The length of the body was tested before any statement. -/
theorem emits_post_message {channel : ChannelId} {sender : ActorId} {id : MessageId} {body : Text}
    (hc : ∀ ch, ¬ c.creates (.channel ch)) :
    (post_message tx o channel sender id body).Emits (Fitting c) := by
  unfold post_message
  split
  · trivial
  rename_i hlength
  -- The message is numbered by the counter that the update gives back, so its bounds come first.
  refine Txn.Prog.emits_bind_returns (Q := fun r => ∀ counter, r = some counter →
    1 ≤ counter.next_message_seq ∧ counter.next_message_seq ≤ bigint_max) (emits_lift ?_) ?_ ?_
  · exact Txn.Prog.emits_bind emits_snapshot fun db =>
      emits_update_row fun _ => fitting_other (hc _)
  · refine Txn.Prog.returns_mapError.mpr (returns_update.mono fun r hr counter hcounter => ?_)
    obtain ⟨db, old, hset⟩ := hr counter hcounter
    split at hset
    · cases hset
    rename_i hmax
    split at hset
    · cases hset
      exact ⟨Nat.le_add_left 1 _, Nat.le_of_not_gt hmax⟩
    · cases hset
  intro counter hcounter
  split
  · trivial
  rename_i counter
  obtain ⟨hpos, hmax⟩ := hcounter counter rfl
  refine Txn.Prog.emits_bind (emits_lift ?_) fun inserted => ?_
  · refine Txn.Prog.emits_bind emits_snapshot fun db => emits_insert_row fun hok => fitting_put ?_
    rw [Bool.not_eq_true', Bool.not_eq_false, Bool.and_eq_true, decide_eq_true_eq,
      decide_eq_true_eq] at hlength
    exact ⟨(admitted_else hok).1, hlength.1, hlength.2, hpos, hmax⟩
  split
  · exact emits_lift_message
  · refine Txn.Prog.emits_bind (emits_lift emits_select) fun stored => ?_
    split
    · trivial
    · exact emits_lift_message

end Operations

/-- **Every call** adds fitting rows only, whatever it reads. The calls that add a row of a table
with checks have a lemma above; the others add none, or rows of a table that has no check. -/
theorem fitting_body (q : Request) : q.body.Emits (Fitting q.call) := by
  have hnone : (∀ k, ¬ q.call.creates k) → q.body.Emits (Fitting q.call) := by
    refine fun hno => Txn.Prog.emits_of_forall fun u => ?_
    rintro k r - hk
    exact absurd hk (hno k)
  obtain ⟨c, tx⟩ := q
  cases c with
  | create_person => exact Txn.Prog.emits_answer.mpr emits_create_person
  | create_organization => exact Txn.Prog.emits_answer.mpr emits_create_organization
  | create_team => exact Txn.Prog.emits_answer.mpr emits_create_team
  | create_channel => exact Txn.Prog.emits_answer.mpr emits_create_channel
  | create_invite => exact Txn.Prog.emits_answer.mpr emits_create_invite
  | accept_invite =>
      refine Txn.Prog.emits_answer.mpr (emits_accept_invite fun i hi => ?_)
      rcases hi with hi | hi | ⟨o, hi⟩ <;> cases hi
  | post_message =>
      refine Txn.Prog.emits_answer.mpr (emits_post_message fun ch hch => ?_)
      cases hch
  | add_team_member | add_channel_member =>
      -- Their tables have no check to meet.
      refine Txn.Prog.emits_of_forall ?_
      rintro u k r - hk
      cases hk
      trivial
  | sign_in =>
      refine Txn.Prog.emits_of_forall ?_
      rintro u k r - hk
      cases hk
      exact storable_token_hash _
  | _ => exact hnone fun k hk => hk

section Commits

variable {q : Request} {L : Held} {ws : List Write} {reply : Reply} {db : Database}

/-- The number that a channel is counted to is the number of a message, which fits. Both are put by
one commit, so the bound of the counter is read off the message. -/
theorem Sent.counter_fits {id : MessageId} {m : MessageRow} {y : ChannelRow} {o : OrganizationId}
    {c : ChannelId} {sender : ActorId} {body : Text} (hsent : Sent ws db id m y)
    (hq : q.call = .post_message o c sender id body) (hws : ∀ u ∈ ws, Fitting q.call u) :
    y.next_message_seq + 1 ≤ bigint_max := by
  have hput : Write.put (.message id) (some m) ∈ ws := by simp [hsent.writes]
  have hcreates : q.call.creates (.message id) := by
    rw [hq]
    rfl
  obtain ⟨-, -, -, -, hmax⟩ := hws _ hput _ m rfl hcreates
  rwa [hsent.seq] at hmax

/-- What a commit makes of a row that fits, fits. An update changes no column that is tested but
the counters of a channel and of an invite, whose bounds the commit itself has; a departure only
empties names. -/
theorem CommitSpec.fits_stays (h : CommitSpec false q ws reply db) (hd : Disciplined q.call L ws db)
    (hws : ∀ u ∈ ws, Fitting q.call u) {k : Key} {x r : Row k} (hx : db.rows.get k = some x)
    (hfits : Fits k x) (hput : Write.put k (some r) ∈ ws) : Fits k r := by
  have heffect := h.effect hput
  have hfixed := (hd k (some r) hput).fixed r rfl
  generalize hr : some r = y at heffect
  cases heffect with
  | actor_created _ _ hnone | organization_created _ _ _ _ _ hnone | founder _ _ _ _ _ _ hnone
  | admitted _ _ _ _ _ _ _ _ _ hnone | team_created _ _ _ _ hnone
  | channel_created _ _ _ _ _ _ _ hnone | invite_created _ _ _ _ hnone =>
      cases hnone.symm.trans hx
  -- Users and messages are only ever inserted, so the row was not there.
  | user_created | message_sent =>
      have hnone := hfixed rfl
      cases hnone.symm.trans hx
  -- No change of a membership gives it a display name.
  | member_changed p o a y y' e _ _ hy _ _ hchange =>
      cases hy.symm.trans hx
      cases hr
      generalize q.call = call at hchange
      cases hchange with
      | role | suspended | reactivated => exact hfits
  -- The counter goes up by one, to the number of the message.
  | channel_counted _ _ _ _ _ m y hq hsent =>
      cases hsent.channel.symm.trans hx
      cases hr
      obtain ⟨hname, hshort, hlong, -⟩ := hfits
      exact ⟨hname, hshort, hlong, hsent.counter_fits hq hws⟩
  | invite_revoked _ y _ _ hy =>
      cases hy.symm.trans hx
      cases hr
      exact hfits
  -- So does the count of uses, which the update bounds by `max_uses`.
  | invite_used _ y _ hy huses =>
      cases hy.symm.trans hx
      cases hr
      obtain ⟨htext, hpos, hused, -⟩ := hfits
      exact ⟨htext, hpos, Int.le_add_one hused, huses⟩
  -- A departure deletes rows, or takes the names out of them.
  | departed _ _ y _ _ _ hpersonal hy _ =>
      cases hy.symm.trans hx
      cases k with
      | user | session | teamMember | channelMember => cases hr
      | actor =>
          cases hr
          rintro name ⟨⟩
      | member =>
          cases hr
          rfl
      | _ => cases hpersonal
  | session_opened | session_revoked =>
      cases hr
      exact storable_token_hash _
  | team_member_added | team_member_changed | team_member_removed | channel_member_added => trivial

/-- **Every commit keeps the checks.** A row is as it was, or it was put: then it is new, and the
inserting statement has tested it, or it is a change of a row that fitted. -/
theorem CommitSpec.fits (h : CommitSpec false q ws reply db) (hd : Disciplined q.call L ws db)
    (hws : ∀ u ∈ ws, Fitting q.call u) (hall : ∀ k r, db.rows.get k = some r → Fits k r) :
    ∀ k r, (view ws db).rows.get k = some r → Fits k r := by
  intro k r hr
  rcases view_get ws db k with hsame | hput
  · exact hall k r (hsame.symm.trans hr)
  rw [hr] at hput
  cases hx : db.rows.get k with
  | none => exact hws _ hput k r rfl (h.creates hput hx)
  | some x => exact h.fits_stays hd hws hx (hall k x hx) hput

end Commits

/-- `audit_events.action`: `^[a-z]+(\.[a-z_]+){1,2}$`. -/
def action_format (action : Text) : Bool :=
  match action.splitOn '.' with
  | first :: rest => word false first && (rest.length = 1 || rest.length = 2) && rest.all (word true)
  | [] => false
where
  word (underscore : Bool) (t : Text) : Bool :=
    !t.isEmpty && t.all fun c => ('a' ≤ c && c ≤ 'z') || (underscore && c = '_')

def TARGET_TYPES : List String := ["organization", "team", "actor", "channel"]

/-- Every record has an action and a target type that its table takes. There are fifteen actions,
and the pattern is evaluated on each of them. -/
theorem Event.fits (e : Event) :
    action_format e.action.toList = true ∧ e.target_type ∈ TARGET_TYPES := by
  have hformat : ∀ a ∈ ["invite.created", "invite.revoked", "organization.created",
      "organization.member.added", "organization.member.role_changed",
      "organization.member.suspended", "organization.member.reactivated",
      "organization.member.left", "team.created", "team.member.added",
      "team.member.role_changed", "team.member.removed", "channel.created",
      "channel.member.added", "channel.member.removed"], action_format a.toList = true := by
    decide +kernel
  constructor
  · refine hformat _ ?_
    cases e <;> simp [action]
  · cases e <;> simp [target_type, TARGET_TYPES]

/-- Every check of the schema. -/
structure Checks (db : Database) : Prop where
  rows : ∀ k r, db.rows.get k = some r → Fits k r
  audit_events : ∀ row ∈ db.audit_events,
    action_format row.event.action.toList = true ∧ row.event.target_type ∈ TARGET_TYPES

/-- **The checks hold**, in every committed state of every run: every row is as its table's
`CHECK`s want it, and no text holds what the database cannot store. By induction over the endings,
where the writes of a commit are those that its program emits (`fitting_body`). -/
theorem checks_hold {s : System} (h : (engine anyCall).Reachable World.empty s) :
    Checks s.world.store := by
  have hv : (allRules false).valid World.empty := Consistent.empty
  have hrun : (engine anyCall).ReachableIn (fun _ => True) World.empty s :=
    Txn.Engine.Reachable.within _ (fun _ => trivial) h
  refine ⟨((sound false).invariant (P := fun _ => True)
    (fun s _ => Txn.Rules.clear_of_presumes presumes_nothing s) hv
    (I := fun v => ∀ k r, v.store.rows.get k = some r → Fits k r) ?_ ?_ hrun).2,
    fun row _ => row.event.fits⟩
  · intro k r hr
    cases hr
  intro s _ hrun _ t x out hx hends hg hI
  cases hends with
  | fails | aborts => exact hI
  | commits hp =>
      -- What is committed is what the program has emitted on its way.
      have hyields := Txn.Engine.Reachable.task_yields hrun.reachable t x hx (.commits hp)
      exact hg.2.1.fits hg.1 (hyields.writes (fitting_body x.call) (by simp)) hI

/-- An organization with a channel, a used invite and a message, so that both counters have moved.
-/
theorem checks_hold_joined : ∃ s : System, (engine anyCall).Reachable World.empty s
    ∧ (s.world.store.invite ⟨30⟩).map InviteRow.used_count = some 1
    ∧ (s.world.store.channel ⟨50⟩).map ChannelRow.next_message_seq = some 1
    ∧ Checks s.world.store := by
  obtain ⟨s, hs, hcheck⟩ := reachable_of_serve 100 (channelJoined ++ [⟨joinedPost, ⟨0, 7⟩⟩])
    (fun s => (s.world.store.invite ⟨30⟩).map InviteRow.used_count = some 1
      && (s.world.store.channel ⟨50⟩).map ChannelRow.next_message_seq = some 1)
    (by decide +kernel)
  rw [Bool.and_eq_true, decide_eq_true_eq, decide_eq_true_eq] at hcheck
  exact ⟨s, hs, hcheck.1, hcheck.2, checks_hold hs⟩

end Fukulow
