/-
What never changes: identities, owners and parents of rows, and all that was said before.

`Permanent` compares two committed states of a run, the later one with the earlier one. Rows
of most tables stay; a row that is there at both moments is about the same things; what only
grows has only grown, and what has ended does not begin again. One commit keeps this
(`Permanent.step`), so every run does.
-/
import Fukulow.References
import Fukulow.SessionLife
import Fukulow.SigningIn

set_option autoImplicit false

namespace Fukulow

/-- What the later state `db'` has kept of the earlier one. -/
structure Permanent (db db' : Database) : Prop where
  /-- A row of a table without deletion stays. -/
  stays : ∀ k, k.deletable = false → db.rows.get k ≠ none → db'.rows.get k ≠ none
  /-- A row of a table without updates is as it was, also when it has come back. -/
  fixed : ∀ k r r', k.updatable = false → db.rows.get k = some r → db'.rows.get k = some r' → r' = r
  organization : ∀ o r r', db.organization o = some r → db'.organization o = some r' → r' = r
  /-- An actor keeps its type, and one who has left is left alone. -/
  actor : ∀ a r r', db.actor a = some r → db'.actor a = some r' →
    r'.type = r.type ∧ (r.deleted_at ≠ none → r' = r)
  /-- Leaving an organization is for good. -/
  member : ∀ o a r r', db.member o a = some r → db'.member o a = some r' → r.status = .left → r' = r
  teamMember : ∀ t a r r', db.teamMember t a = some r → db'.teamMember t a = some r' →
    r'.organization_id = r.organization_id
  /-- A channel keeps its owner and its name, and its messages are counted on. -/
  channel : ∀ c r r', db.channel c = some r → db'.channel c = some r' →
    r.next_message_seq ≤ r'.next_message_seq
      ∧ r' = { r with next_message_seq := r'.next_message_seq }
  /-- An invite keeps its terms; its uses only grow, and it is revoked once. -/
  invite : ∀ i r r', db.invite i = some r → db'.invite i = some r' →
    r.used_count ≤ r'.used_count ∧ (r.revoked_at ≠ none → r'.revoked_at = r.revoked_at)
      ∧ r' = { r with
        used_count := r'.used_count, revoked_at := r'.revoked_at, xmin := r'.xmin }
  /-- A session stays until its holder leaves, with its token and its end, and is revoked once. -/
  session : ∀ i r, db.session i = some r → db'.departed r.actor_id = true
    ∨ ∃ r', db'.session i = some r' ∧ (r.revoked_at ≠ none → r'.revoked_at = r.revoked_at)
      ∧ r' = { r with revoked_at := r'.revoked_at }
  /-- Nobody comes back. -/
  departed : ∀ a, db.departed a = true → db'.departed a = true
  /-- The audit log only grows. -/
  audit_events : db.audit_events <+: db'.audit_events

/-- A state has kept everything of itself. -/
theorem Permanent.refl (db : Database) : Permanent db db where
  stays _ _ h := h
  fixed _ _ _ _ hr hr' := Option.some.inj (hr'.symm.trans hr)
  organization _ _ _ hr hr' := Option.some.inj (hr'.symm.trans hr)
  actor _ _ _ hr hr' := by
    cases hr.symm.trans hr'
    exact ⟨rfl, fun _ => rfl⟩
  member _ _ _ _ hr hr' _ := Option.some.inj (hr'.symm.trans hr)
  teamMember _ _ _ _ hr hr' := by
    cases hr.symm.trans hr'
    rfl
  channel _ _ _ hr hr' := by
    cases hr.symm.trans hr'
    exact ⟨le_rfl, rfl⟩
  invite _ _ _ hr hr' := by
    cases hr.symm.trans hr'
    exact ⟨le_rfl, fun _ => rfl, rfl⟩
  session _ r hr := .inr ⟨r, hr, fun _ => rfl, rfl⟩
  departed _ h := h
  audit_events := List.prefix_rfl

section Step

variable {q : Request} {ws : List Write} {reply : Reply} {db₀ db : Database}

/-- A row that was there before is still there, in a table that nothing is deleted from. -/
theorem Permanent.there (h : Permanent db₀ db) {k : Key} {r : Row k} (hk : k.deletable = false)
    (hr : db₀.rows.get k = some r) : db.rows.get k ≠ none :=
  h.stays k hk fun hnone => by cases hnone.symm.trans hr

/-- What a revocation makes of a session: nothing, or it is revoked, for the first time or again. -/
theorem RevokedBy.row {a : ActorId} {hash : TokenHash} {now : Instant}
    (h : RevokedBy ws db a hash now) {i : SessionId} {y : SessionRow} (hy : db.session i = some y) :
    (view ws db).session i = some y
      ∨ (view ws db).session i = some { y with revoked_at := some (y.revoked_at.getD now) } := by
  obtain ⟨j, x, hx, -, -, rfl⟩ := h
  by_cases hj : i = j
  · subst hj
    cases hy.symm.trans hx
    exact .inr (view_get_of_put (k := .session i) List.mem_cons_self (by simp))
  · exact .inl ((view_get_of_untouched (k := .session i) (by simp [hj])).trans hy)

/-- **One commit.** What was kept until now is kept on: the effect of the commit on each row is
known, and for every table the change is one that the record allows. -/
theorem Permanent.step (hp : Permanent db₀ db) (hpeople : Peopled db₀) (hrefs₀ : References db₀)
    (hc : Consistent db) (hrefs : References db) (h : CommitSpec false q ws reply db)
    (hsession : SessionSpec q ws reply db) : Permanent db₀ (view ws db) := by
  have hstays : ∀ k, k.deletable = false → db₀.rows.get k ≠ none →
      (view ws db).rows.get k ≠ none := fun k hk hx => h.stays hk (hp.stays k hk hx)
  have hrefs' := h.references hrefs
  have hdeparted : ∀ a, db₀.departed a = true → (view ws db).departed a = true := fun a ha =>
    h.stays_departed hc (hp.departed a ha)
  have hteam : ∀ t r r', db₀.team t = some r → (view ws db).team t = some r' → r' = r := by
    intro t r r' hr hr'
    obtain ⟨x, hx⟩ := Option.ne_none_iff_exists'.mp (hp.there rfl hr)
    have hsame := hp.fixed (.team t) r x rfl hr hx
    cases (h.team_stays hx).symm.trans hr'
    exact hsame
  have hchannel : ∀ c r r', db₀.channel c = some r → (view ws db).channel c = some r' →
      r.next_message_seq ≤ r'.next_message_seq
        ∧ r' = { r with next_message_seq := r'.next_message_seq } := by
    intro c r r' hr hr'
    obtain hold | heffect := h.effect_or_old hr'
    · exact hp.channel c r r' hr hold
    · generalize hx : some r' = x at heffect
      cases heffect with
      | channel_created _ _ _ _ _ _ _ hnone => exact absurd hnone (hp.there rfl hr)
      | channel_counted _ _ _ _ _ m y _ hsent =>
          cases hx
          obtain ⟨hle, heq⟩ := hp.channel _ r y hr hsent.channel
          refine ⟨Nat.le_succ_of_le hle, ?_⟩
          rw [heq]
      | departed _ _ _ _ _ _ hpersonal => cases hpersonal
  refine ⟨hstays, ?_, ?_, ?_, ?_, ?_, hchannel, ?_, ?_, hdeparted, ?_⟩
  · intro k r r' hk hr hr'
    obtain hold | heffect := h.effect_or_old hr'
    · exact hp.fixed k r r' hk hr hold
    · generalize hx : some r' = x at heffect
      cases heffect with
      | user_created a email hash hnone =>
          -- A user can come back only with a new actor, and the old one stays.
          have hactor := hpeople.actor a fun hnone' => by cases hnone'.symm.trans hr
          exact absurd hnone (hp.stays (.actor a) rfl hactor)
      | team_created p t _ _ hnone => exact absurd hnone (hp.there rfl hr)
      | message_sent _ _ _ id _ m y _ hsent => exact absurd hsent.new (hp.there rfl hr)
      | channel_member_added p c a o hq hnone hch =>
          cases hx
          -- A listing that comes back names the organization of the same channel again.
          obtain ⟨-, x, hx₀, horg₀, -⟩ := hrefs₀.channelMember c a r hr
          obtain ⟨-, x', hx', horg', -⟩ := hrefs'.channelMember c a _ hr'
          have hsame := (hchannel c x x' hx₀ hx').2
          rw [hsame] at horg'
          cases r
          cases horg₀
          cases horg'
          rfl
      | departed b k y _ _ _ hpersonal =>
          cases k with
          | user | channelMember => cases hx
          | team | message => cases hpersonal
          | _ => cases hk
      | _ => cases hk
  · intro o r r' hr hr'
    obtain hold | heffect := h.effect_or_old hr'
    · exact hp.organization o r r' hr hold
    · generalize hx : some r' = x at heffect
      cases heffect with
      | organization_created _ _ _ _ _ hnone => exact absurd hnone (hp.there rfl hr)
      | departed _ _ _ _ _ _ hpersonal => cases hpersonal
  · intro a r r' hr hr'
    obtain hold | heffect := h.effect_or_old hr'
    · exact hp.actor a r r' hr hold
    · generalize hx : some r' = x at heffect
      cases heffect with
      | actor_created _ _ hnone => exact absurd hnone (hp.there rfl hr)
      | departed b _ y _ hpresent _ _ hy hb =>
          cases hx
          cases hb
          obtain ⟨htype, hleft⟩ := hp.actor a r y hr hy
          refine ⟨htype, fun hgone => ?_⟩
          -- Who had left before does not leave again.
          have hdep := hp.departed a (Database.departed_iff.mpr
            ⟨r, hr, Option.isSome_iff_ne_none.mpr hgone⟩)
          rw [hpresent.not_departed] at hdep
          cases hdep
  · intro o a r r' hr hr' hleft
    obtain hold | heffect := h.effect_or_old hr'
    · exact hp.member o a r r' hr hold hleft
    · generalize hx : some r' = x at heffect
      cases heffect with
      | founder _ _ _ _ _ _ hnone => exact absurd hnone (hp.there rfl hr)
      | admitted _ _ _ _ _ _ _ _ _ hnone => exact absurd hnone (hp.there rfl hr)
      | member_changed p _ _ y y' e _ _ hy hstatus =>
          have hsame := hp.member o a r y hr hy hleft
          exact absurd (hsame ▸ hleft) hstatus
      | departed b _ y _ hpresent _ _ hy hb =>
          cases hb
          -- Who has left one organization has left them all.
          have hsame := hp.member o a r y hr hy hleft
          have hdep := hc.left o a y hy (hsame ▸ hleft)
          rw [hpresent.not_departed] at hdep
          cases hdep
  -- A listing has the organization of its team, whether it stayed or came back.
  · intro t a r r' hr hr'
    obtain ⟨x, hx, horg⟩ := hrefs₀.teamMember t a r hr
    obtain ⟨x', hx', horg'⟩ := hrefs'.teamMember t a r' hr'
    rw [← horg, ← horg', hteam t x x' hx hx']
  · intro i r r' hr hr'
    obtain hold | heffect := h.effect_or_old hr'
    · exact hp.invite i r r' hr hold
    · generalize hx : some r' = x at heffect
      cases heffect with
      | invite_created _ _ _ _ hnone => exact absurd hnone (hp.there rfl hr)
      | invite_revoked _ y now xid hy hnot =>
          cases hx
          obtain ⟨hle, hrevoked, heq⟩ := hp.invite i r y hr hy
          refine ⟨hle, fun hgone => absurd ((hrevoked hgone).symm.trans hnot) hgone, ?_⟩
          rw [heq]
      | invite_used _ y xid hy =>
          cases hx
          obtain ⟨hle, hrevoked, heq⟩ := hp.invite i r y hr hy
          refine ⟨hle.trans (Int.le_add_of_nonneg_right (by omega)), hrevoked, ?_⟩
          rw [heq]
      | departed _ _ _ _ _ _ hpersonal => cases hpersonal
  · intro i r hr
    obtain hdep | ⟨y, hy, hrevoked, heq⟩ := hp.session i r hr
    · exact .inl (h.stays_departed hc hdep)
    obtain hsame | heffect := h.effect_or_same (.session i)
    · exact .inr ⟨y, hsame.trans hy, hrevoked, heq⟩
    · generalize hx : (view ws db).rows.get (.session i) = x at heffect
      cases heffect with
      | session_opened _ _ _ hnone => cases hnone.symm.trans hy
      | session_revoked _ y' now hcall =>
          obtain ⟨b, hash, hq⟩ := hcall
          rw [SessionSpec, hq] at hsession
          obtain hsame | hnow := hsession.row hy
          · exact .inr ⟨y, hsame, hrevoked, heq⟩
          · refine .inr ⟨_, hnow, fun hgone => ?_, ?_⟩
            · -- The first revocation stays.
              obtain ⟨t, ht⟩ := Option.ne_none_iff_exists'.mp hgone
              rw [hrevoked hgone, ht]
              rfl
            · rw [heq]
      | departed b _ y' hq _ _ _ hy' hb =>
          cases hy.symm.trans hy'
          refine .inl ?_
          rw [heq] at hb
          cases hb
          exact (h.departure hq).departs
  · rw [view_audit]
    exact hp.audit_events.trans (List.prefix_append _ _)

end Step

/-- Every user of a committed state is an actor. -/
theorem reachable_peopled {s : System} (h : (engine anyCall).Reachable World.empty s) :
    Peopled s.world.store := by
  have hv : peopleRules.valid World.empty := Peopled.empty
  have hclear : ∀ u, peopleRules.Clear u :=
    Txn.Rules.clear_of_presumes (presumes_nothing (V := fun w => Peopled w.store))
  exact (peopleRules_sound.reachable hv (Txn.Engine.Reachable.within _ hclear h)).1.valid

/-- **What never changes.** Between any two committed states of a run no row moves to another
organization, actor, team or channel, or changes its kind; only listings, users and sessions
disappear, and of the latter only those of people who leave; numbers of messages and uses of
invites only grow; whoever has left stays away, what was revoked stays revoked since it was,
and the audit log only grows. -/
theorem what_never_changes {s s' : System} (h : (engine anyCall).Reachable World.empty s)
    (hs : (engine anyCall).Steps s s') : Permanent s.world.store s'.world.store := by
  have hpeople := reachable_peopled h
  have hrefs := reachable_references h
  have hv : sessionRules.valid World.empty := Consistent.empty
  have hclear : ∀ u, sessionRules.Clear u := Txn.Rules.clear_of_presumes fun _ => rfl
  have hsafe := (sessionRules_sound.reachable hv (Txn.Engine.Reachable.within _ hclear h)).1
  have hlater := (hsafe.steps sessionRules_sound
    (Relation.ReflTransGen.mono (fun u _ hstep => ⟨hclear u, hstep⟩) _ _ hs)).2
  refine (Txn.Rules.Later.preserves (P := fun v : World =>
    References v.store ∧ Permanent s.world.store v.store) ?_ hlater ⟨hrefs, .refl _⟩).2
  rintro q L out w ⟨hr, hp⟩ hg - hc
  cases out with
  | committed ws reply =>
      have hspec : CommitSpec false q ws reply w.store := hg.1.2.1
      exact ⟨hspec.references hr, hp.step hpeople hrefs hc hr hspec (hg.2 ws reply rfl)⟩
  | failed | aborted => exact ⟨hr, hp⟩

/-- The second of two people leaves, and the first stays an active owner. -/
theorem what_never_changes_leaving : ∃ s s' : System, s.world.store.departed ⟨2⟩ = false
    ∧ s'.world.store.departed ⟨2⟩ = true ∧ Permanent s.world.store s'.world.store := by
  have hrun : (((engine anyCall).serve 100 founding (Txn.Engine.idle World.empty)).bind fun s =>
      ((engine anyCall).run s (.start 0 ⟨.leave_service ⟨2⟩, ⟨0, 4⟩⟩
        :: List.replicate 13 (.advance 0))).map fun s' =>
          (s.world.store.departed ⟨2⟩, s'.world.store.departed ⟨2⟩)) = some (false, true) := by
    decide +kernel
  obtain ⟨s, hserve, hrest⟩ := Option.bind_eq_some_iff.mp hrun
  obtain ⟨s', hmoves, hseen⟩ := Option.map_eq_some_iff.mp hrest
  have hreach := (Txn.Engine.ReachableIn.of_serve (fun _ h => h) hserve).reachable
  obtain ⟨hbefore, hafter⟩ := Prod.mk.inj hseen
  exact ⟨s, s', hbefore, hafter, what_never_changes hreach (Txn.Engine.Steps.of_run _ hmoves)⟩

end Fukulow
