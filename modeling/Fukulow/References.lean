/-
The foreign keys hold in every committed state.

An insert checks its references under `KEY SHARE` locks, and the rows it references are of
tables without deletion. So what a reference names is there for good, with the organization
it was there with. Only the references that a later statement leans on are listed.
-/
import Fukulow.Consistency

set_option autoImplicit false

namespace Fukulow

/-- What a row references is there. -/
structure References (db : Database) : Prop where
  member : ∀ o a r, db.member o a = some r → db.organization o ≠ none ∧ db.actor a ≠ none
  team : ∀ t r, db.team t = some r → db.organization r.organization_id ≠ none
  teamMember : ∀ t a r, db.teamMember t a = some r →
    ∃ x, db.team t = some x ∧ x.organization_id = r.organization_id
  channel : ∀ c r, db.channel c = some r → db.organization r.organization_id ≠ none
    ∧ ∀ t, r.scope = .team t → ∃ x, db.team t = some x ∧ x.organization_id = r.organization_id
  channelMember : ∀ c a r, db.channelMember c a = some r → db.actor a ≠ none
    ∧ ∃ x, db.channel c = some x ∧ x.organization_id = r.organization_id
      ∧ x.scope ≠ .organization
  message : ∀ id r, db.message id = some r →
    ∃ x, db.channel r.channel_id = some x ∧ x.organization_id = r.organization_id
  invite : ∀ i r, db.invite i = some r → db.organization r.organization_id ≠ none

theorem References.empty : References Database.empty where
  member _ _ _ h := by cases h
  team _ _ h := by cases h
  teamMember _ _ _ h := by cases h
  channel _ _ h := by cases h
  channelMember _ _ _ h := by cases h
  message _ _ h := by cases h
  invite _ _ h := by cases h

/-- Where somebody is active, there is an organization. -/
theorem References.organization_of_active {db : Database} (h : References db) {o : OrganizationId}
    {a : ActorId} (ha : db.active o a = true) : db.organization o ≠ none := by
  obtain ⟨r, hr, -⟩ := Database.active_iff.mp ha
  exact (h.member o a r hr).1

variable {guarded : Bool} {q : Request} {ws : List Write} {reply : Reply} {db : Database}

/-! ## What stays -/

/-- Only rows of deletable tables are deleted: the effects without a row are those of departures
and of the removal from a team. -/
theorem Effect.deletable {k : Key} {r : Option (Row k)} (h : Effect guarded q ws db k r)
    (hr : r = none) : k.deletable = true := by
  cases h with
  | team_member_removed => rfl
  | departed a k x _ _ _ hk _ _ =>
      cases k with
      | user | teamMember | channelMember | session => rfl
      | actor | member => cases hr
      | _ => cases hk
  | _ => cases hr

/-- A row of a table without deletion stays, be it as another version. -/
theorem CommitSpec.stays (h : CommitSpec guarded q ws reply db) {k : Key}
    (hk : k.deletable = false) (hx : db.rows.get k ≠ none) : (view ws db).rows.get k ≠ none := by
  obtain hsame | heffect := h.effect_or_same k
  · rwa [hsame]
  · intro hnone
    have hdel := heffect.deletable hnone
    rw [hk] at hdel
    cases hdel

/-- A team stays as it is: no operation updates one. -/
theorem CommitSpec.team_stays (h : CommitSpec guarded q ws reply db) {t : TeamId} {r : TeamRow}
    (hr : db.team t = some r) : (view ws db).team t = some r := by
  obtain hsame | heffect := h.effect_or_same (.team t)
  · exact hsame.trans hr
  · generalize hx : (view ws db).rows.get (.team t) = x at heffect
    cases heffect with
    | team_created _ _ _ _ hnone => cases hnone.symm.trans hr
    | departed _ _ _ _ _ _ hpersonal => cases hpersonal

/-- A channel keeps its organization and its scope; only its counter moves. -/
theorem CommitSpec.channel_stays (h : CommitSpec guarded q ws reply db) {c : ChannelId}
    {r : ChannelRow} (hr : db.channel c = some r) :
    ∃ r', (view ws db).channel c = some r' ∧ r'.organization_id = r.organization_id
      ∧ r'.scope = r.scope := by
  obtain hsame | heffect := h.effect_or_same (.channel c)
  · exact ⟨r, hsame.trans hr, rfl, rfl⟩
  · generalize hx : (view ws db).rows.get (.channel c) = x at heffect
    cases heffect with
    | channel_created _ _ o scope name _ _ hnone => cases hnone.symm.trans hr
    | channel_counted _ _ _ id _ m y _ hsent =>
        cases hsent.channel.symm.trans hr
        exact ⟨_, hx, rfl, rfl⟩
    | departed _ _ _ _ _ _ hpersonal => cases hpersonal

/-! ## One commit -/

/-- **Every commit keeps the references.** A row that is old kept what it names, by the lemmas
above; a row that is new found it, which its effect says. -/
theorem CommitSpec.references (h : CommitSpec guarded q ws reply db) (hr : References db) :
    References (view ws db) where
  member o a r hm := by
    obtain hold | heffect := h.effect_or_old hm
    · obtain ⟨horg, hactor⟩ := hr.member o a r hold
      exact ⟨h.stays rfl horg, h.stays rfl hactor⟩
    · generalize hx : some r = x at heffect
      cases heffect with
      -- The organization is new as well: the same commit writes it.
      | founder _ _ name slug hq _ _ hpresent =>
          obtain ⟨y, hy, -⟩ := hpresent
          refine ⟨?_, h.stays rfl (by simp [hy])⟩
          obtain ⟨c, tx⟩ := q
          cases hq
          obtain ⟨-, -, -, hws⟩ := h
          have hget : (view ws db).rows.get (.organization o) = some ⟨name, slug⟩ :=
            view_get_of_put (by simp [hws]) (by simp [hws])
          simp [hget]
      -- Here the organization is the invite's, and the actor is new.
      | admitted _ _ hash email pw name hq hinvite _ _ =>
          obtain ⟨i, y, hy, rfl⟩ := hinvite
          refine ⟨h.stays rfl (hr.invite i y hy), ?_⟩
          obtain ⟨c, tx⟩ := q
          cases hq
          obtain ⟨_, _, -, -, -, -, -, -, hws⟩ := h
          have hget : (view ws db).rows.get (.actor a) = some ⟨.human, some name, none⟩ :=
            view_get_of_put (by simp [hws]) (by simp [hws])
          simp [hget]
      | member_changed _ _ _ y _ _ _ _ hy =>
          obtain ⟨horg, hactor⟩ := hr.member o a y hy
          exact ⟨h.stays rfl horg, h.stays rfl hactor⟩
      | departed _ _ y _ _ _ _ hy =>
          obtain ⟨horg, hactor⟩ := hr.member o a y hy
          exact ⟨h.stays rfl horg, h.stays rfl hactor⟩
  team t r ht := by
    obtain hold | heffect := h.effect_or_old ht
    · exact h.stays rfl (hr.team t r hold)
    · generalize hx : some r = x at heffect
      cases heffect with
      | team_created _ _ y hactive =>
          cases hx
          exact h.stays rfl (hr.organization_of_active hactive)
      | departed _ _ _ _ _ _ hpersonal => cases hpersonal
  teamMember t a r hm := by
    have hkeep : ∀ o, (∃ x, db.team t = some x ∧ x.organization_id = o) →
        ∃ x, (view ws db).team t = some x ∧ x.organization_id = o :=
      fun o ⟨x, hx, ho⟩ => ⟨x, h.team_stays hx, ho⟩
    obtain hold | heffect := h.effect_or_old hm
    · exact hkeep _ (hr.teamMember t a r hold)
    · generalize hx : some r = x at heffect
      cases heffect with
      | team_member_added _ _ o role hteam =>
          cases hx
          exact hkeep o hteam
      | team_member_changed _ _ y role hy =>
          cases hx
          exact hkeep _ (hr.teamMember t a y hy)
      | team_member_removed => cases hx
      | departed => cases hx
  channel c r hc := by
    have hkeep : ∀ o, (∀ t, r.scope = .team t → ∃ x, db.team t = some x ∧ x.organization_id = o) →
        ∀ t, r.scope = .team t → ∃ x, (view ws db).team t = some x ∧ x.organization_id = o := by
      intro o hteam t ht
      obtain ⟨x, hx, ho⟩ := hteam t ht
      exact ⟨x, h.team_stays hx, ho⟩
    obtain hold | heffect := h.effect_or_old hc
    · obtain ⟨horg, hteam⟩ := hr.channel c r hold
      exact ⟨h.stays rfl horg, hkeep _ hteam⟩
    · generalize hx : some r = x at heffect
      cases heffect with
      | channel_created p _ o scope name hactive hteam =>
          cases hx
          exact ⟨h.stays rfl (hr.organization_of_active hactive), hkeep _ hteam⟩
      | channel_counted _ _ _ id _ m y _ hsent =>
          cases hx
          obtain ⟨horg, hteam⟩ := hr.channel _ y hsent.channel
          exact ⟨h.stays rfl horg, hkeep _ hteam⟩
      | departed _ _ _ _ _ _ hpersonal => cases hpersonal
  channelMember c a r hm := by
    have hkeep : ∀ o, (∃ x, db.channel c = some x ∧ x.organization_id = o
          ∧ x.scope ≠ .organization) →
        ∃ x, (view ws db).channel c = some x ∧ x.organization_id = o ∧ x.scope ≠ .organization := by
      rintro o ⟨x, hx, rfl, hscope⟩
      obtain ⟨x', hx', horg, hscope'⟩ := h.channel_stays hx
      exact ⟨x', hx', horg, hscope' ▸ hscope⟩
    obtain hold | heffect := h.effect_or_old hm
    · obtain ⟨hactor, hchannel⟩ := hr.channelMember c a r hold
      exact ⟨h.stays rfl hactor, hkeep _ hchannel⟩
    · generalize hx : some r = x at heffect
      cases heffect with
      | channel_member_added p _ _ o _ _ hchannel hpresent =>
          cases hx
          obtain ⟨y, hy, -⟩ := hpresent
          exact ⟨h.stays rfl (by simp [hy]), hkeep o hchannel⟩
      | departed => cases hx
  message id r hm := by
    have hkeep : ∀ {c o}, (∃ x, db.channel c = some x ∧ x.organization_id = o) →
        ∃ x, (view ws db).channel c = some x ∧ x.organization_id = o := by
      rintro c o ⟨x, hx, rfl⟩
      obtain ⟨x', hx', horg, -⟩ := h.channel_stays hx
      exact ⟨x', hx', horg⟩
    obtain hold | heffect := h.effect_or_old hm
    · exact hkeep (hr.message id r hold)
    · generalize hx : some r = x at heffect
      cases heffect with
      | message_sent _ _ _ _ _ _ y _ hsent =>
          cases hx
          exact hkeep ⟨y, hsent.channel, hsent.organization⟩
      | departed _ _ _ _ _ _ hpersonal => cases hpersonal
  invite i r hi := by
    obtain hold | heffect := h.effect_or_old hi
    · exact h.stays rfl (hr.invite i r hold)
    · generalize hx : some r = x at heffect
      cases heffect with
      | invite_created p _ y hactive =>
          cases hx
          exact h.stays rfl (hr.organization_of_active hactive)
      | invite_revoked _ y _ _ hy =>
          cases hx
          exact h.stays rfl (hr.invite i y hy)
      | invite_used _ y _ hy =>
          cases hx
          exact h.stays rfl (hr.invite i y hy)
      | departed _ _ _ _ _ _ hpersonal => cases hpersonal

/-! ## All runs -/

/-- Every committed state keeps its references, by induction over the endings. -/
theorem reachable_references {s : System} (h : (engine anyCall).Reachable World.empty s) :
    References s.world.store := by
  refine Txn.Rules.Later.preserves (P := fun v : World => References v.store) ?_
    (reachable_later h) References.empty
  intro q L out w hr hg _ _
  cases out with
  | committed ws reply => exact hg.2.1.references hr
  | failed | aborted => exact hr

end Fukulow
