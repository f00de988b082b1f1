/-
The audit log is a complete and truthful history.

Every commit moves the tables of an organization exactly as its records say
(`CommitSpec.ledger`). For a change of one row this is one revision; a departure writes
many rows and as many records, and both come to the same whatever their order. So the log
of an organization, read from the beginning, is what its tables hold. What is read is the
stored columns; the events are there for the proofs (`Ledger.of_log_columns`).
-/
import Fukulow.Consistency
import Fukulow.Ledger

set_option autoImplicit false

namespace Fukulow

variable {guarded : Bool} {q : Request} {ws : List Write} {reply : Reply} {db : Database}
variable {o : OrganizationId} {a : ActorId}

/-! ## Departures -/

/-- A departure's records revise rows about the person who leaves, each of them a row of the
organization it is recorded in. -/
theorem DepartureRecord.leaves {e : Event} (h : DepartureRecord db a o e) :
    ∃ k x, e.leaves o = some k ∧ db.rows.get k = some x ∧ k.personal = true
      ∧ person k x = some a ∧ tenant k x = some o := by
  cases e with
  | team_member_removed b t reason =>
      obtain ⟨rfl, rfl, r, hr, ho⟩ := h
      exact ⟨.teamMember t b, r, rfl, hr, rfl, rfl, congrArg some ho⟩
  | member_left b =>
      obtain ⟨rfl, r, hr⟩ := h
      exact ⟨.member o b, r, rfl, hr, rfl, rfl, rfl⟩
  | channel_member_left b c =>
      obtain ⟨rfl, r, hr, ho⟩ := h
      exact ⟨.channelMember c b, r, rfl, hr, rfl, rfl, congrArg some ho⟩
  | _ => cases h

/-- Every row that a departure changes in an organization has its record there, so that the
removals on record are all of them. -/
theorem exists_departureRecord {k : Key} {x : Row k} (hk : k.personal = true)
    (hx : db.rows.get k = some x) (hp : person k x = some a) (ho : tenant k x = some o) :
    ∃ e, DepartureRecord db a o e ∧ e.leaves o = some k := by
  cases k with
  | member o' b =>
      cases ho
      cases hp
      exact ⟨.member_left a, ⟨rfl, x, hx⟩, rfl⟩
  | teamMember t b =>
      cases ho
      cases hp
      exact ⟨.team_member_removed a t .leftService, ⟨rfl, rfl, x, hx, rfl⟩, rfl⟩
  | channelMember c b =>
      cases ho
      cases hp
      exact ⟨.channel_member_left a c, ⟨rfl, x, hx, rfl⟩, rfl⟩
  | actor | user | session => cases ho
  | _ => cases hk

/-- What a departure makes of a row, in the shown columns: a membership that is left, and no row
for a place in a team or in a channel. -/
theorem shownIn_departing {now : Instant} {k : Key} {x : Row k} (hk : k.personal = true)
    (ho : tenant k x = some o) :
    shownIn o k (departing now k x) = leftAt k (shownIn o k (some x)) := by
  rw [shownIn_of_tenant ho]
  cases k with
  | member o' b =>
      cases ho
      exact shownIn_of_tenant rfl
  | teamMember | channelMember => rfl
  | actor | user | session => cases ho
  | _ => cases hk

/-- A row of another organization shows here neither before nor after the departure. -/
theorem shownIn_departing_other {now : Instant} {k : Key} {x : Row k}
    (ho : tenant k x ≠ some o) : shownIn o k (departing now k x) = shownIn o k (some x) := by
  rw [shownIn_eq_none fun y hy => (departing_same hy).1 ▸ ho,
    shownIn_eq_none (by rintro _ ⟨⟩; exact ho)]

/-- **A departure moves the tables as its records say.** It writes as many rows as the person has,
in the order of three listings; the records are about these same rows, and removals commute. -/
theorem Departure.ledger {now : Instant} (h : Departure ws db guarded now a)
    (o : OrganizationId) :
    (view ws db).ledger o = (eventsOf o (logs ws)).foldl (Ledger.record o) (db.ledger o) := by
  have hevents : ∀ e, e ∈ eventsOf o (logs ws) ↔ DepartureRecord db a o e := by
    intro e
    simp only [mem_eventsOf, mem_logs, h.records]
    constructor
    · rintro ⟨row, ⟨-, hrec⟩, rfl, rfl⟩
      exact hrec
    · exact fun hrec => ⟨⟨o, a, e⟩, ⟨rfl, hrec⟩, rfl, rfl⟩
  have hleaves : ∀ e ∈ eventsOf o (logs ws), ∃ k, e.leaves o = some k := by
    intro e he
    obtain ⟨k, -, hk, -⟩ := ((hevents e).mp he).leaves
    exact ⟨k, hk⟩
  funext k
  rw [foldl_leaves _ _ hleaves]
  split
  case isTrue hmem =>
    obtain ⟨e, he, hk⟩ := List.mem_filterMap.mp hmem
    obtain ⟨k', x, hk', hx, hpers, hp, ho⟩ := ((hevents e).mp he).leaves
    cases hk.symm.trans hk'
    rw [Database.ledger, h.view_of_person hpers hx hp, shownIn_departing hpers ho, Database.ledger,
      hx]
  -- Without a record the row is of someone else, or of another organization.
  case isFalse hmem =>
    by_cases hperson : k.personal = true ∧ ∃ x, db.rows.get k = some x ∧ person k x = some a
    · obtain ⟨hpers, x, hx, hp⟩ := hperson
      rw [Database.ledger, h.view_of_person hpers hx hp, Database.ledger, hx]
      refine shownIn_departing_other fun ho => hmem ?_
      obtain ⟨e, hrec, hk⟩ := exists_departureRecord hpers hx hp ho
      exact List.mem_filterMap.mpr ⟨e, (hevents e).mpr hrec, hk⟩
    · rw [Database.ledger, h.view_of_other fun hpers x hx hp => hperson ⟨hpers, x, hx, hp⟩,
        Database.ledger]

/-! ## One commit -/

/-- Another organization's ledger is not touched: neither the records nor the shown rows are of
that organization. -/
theorem ledger_of_other {o₁ : OrganizationId} (hne : o₁ ≠ o)
    (hlogs : ∀ row ∈ logs ws, row.organization_id = o₁)
    (hputs : ∀ k r, Write.put k r ∈ ws → (∀ x, shown k x = none)
      ∨ ∀ x, db.rows.get k = some x ∨ r = some x → tenant k x = some o₁) :
    (view ws db).ledger o = (eventsOf o (logs ws)).foldl (Ledger.record o) (db.ledger o) := by
  have hevents : eventsOf o (logs ws) = [] := by
    rw [eventsOf, List.filter_eq_nil_iff.mpr, List.map_nil]
    intro row hrow
    simpa [hlogs row hrow] using hne
  rw [hevents]
  funext k
  change shownIn o k _ = shownIn o k _
  obtain hsame | hput := view_get ws db k
  · rw [hsame]
  · obtain hhidden | htenant := hputs k _ hput
    · rw [shownIn_hidden hhidden, shownIn_hidden hhidden]
    · have hother : ∀ x, db.rows.get k = some x ∨ (view ws db).rows.get k = some x →
          tenant k x ≠ some o :=
        fun x hx hx' => hne (Option.some.inj ((htenant x hx).symm.trans hx'))
      rw [shownIn_eq_none fun x hx => hother x (.inr hx),
        shownIn_eq_none fun x hx => hother x (.inl hx)]

/-- The founding of an organization is two records, of which the second makes the founder an owner;
the organization itself is not in the ledger. -/
theorem OrganizationCreated.ledger {creator : ActorId} {name slug : Text} {o₁ : OrganizationId}
    (h : OrganizationCreated ws db creator name slug o₁) (o : OrganizationId) :
    (view ws db).ledger o = (eventsOf o (logs ws)).foldl (Ledger.record o) (db.ledger o) := by
  obtain ⟨-, -, -, hws⟩ := h
  have hlogs : logs ws = [⟨o₁, creator, .organization_created o₁⟩,
      ⟨o₁, creator, .member_added creator .owner⟩] := by
    rw [hws]
    rfl
  have hmember : (view ws db).member o₁ creator = some ⟨.owner, .active, none⟩ :=
    view_get_of_put (k := .member o₁ creator) (by simp [hws]) (by simp [hws])
  have hputs : ∀ k r, Write.put k r ∈ ws → (∀ x, shown k x = none) ∨ k = .member o₁ creator := by
    intro k r hr
    simp only [hws, List.mem_cons, List.not_mem_nil, or_false] at hr
    obtain hr | hr | hr | hr := hr <;> cases hr
    · exact .inl fun _ => rfl
    · exact .inr rfl
  by_cases ho : o₁ = o
  · subst ho
    have hevents : eventsOf o₁ (logs ws) = [.organization_created o₁, .member_added creator .owner] := by
      simp [hlogs, eventsOf]
    rw [hevents]
    funext k
    change shownIn o₁ k _ = Ledger.revise (db.ledger o₁) (.member o₁ creator)
      (fun _ => some (.owner, .active)) k
    -- The first event revises nothing, the second the founder's membership.
    by_cases hk : k = .member o₁ creator
    · subst hk
      rw [Ledger.revise_self]
      exact (congrArg (shownIn o₁ (.member o₁ creator)) hmember).trans (shownIn_of_tenant rfl)
    · rw [Ledger.revise_of_ne hk, Database.ledger]
      obtain hsame | hput := view_get ws db k
      · rw [hsame]
      · have hhidden := (hputs k _ hput).resolve_right hk
        rw [shownIn_hidden hhidden, shownIn_hidden hhidden]
  · refine ledger_of_other ho (by simp [hlogs]) fun k r hr => ?_
    obtain hhidden | rfl := hputs k r hr
    · exact .inl hhidden
    · exact .inr fun _ _ => rfl

/-- The one record of an acceptance stands for two rows, the use of the invite and the new
membership, and both belong to the organization of the invite. -/
theorem InviteAccepted.ledger {tx : Transaction} {hash : TokenHash} {email pw name : Text}
    (h : InviteAccepted ws db tx hash email pw name a reply) (o : OrganizationId) :
    (view ws db).ledger o = (eventsOf o (logs ws)).foldl (Ledger.record o) (db.ledger o) := by
  obtain ⟨i, r, hr, -, -, -, -, -, hws⟩ := h
  have hlogs : logs ws = [⟨r.organization_id, a, .member_invited a i⟩] := by
    rw [hws]
    rfl
  have hinvite : (view ws db).invite i
      = some { r with used_count := r.used_count + 1, xmin := tx.xid } :=
    view_get_of_put (k := .invite i) (by simp [hws]) (by simp [hws])
  have hmember : (view ws db).member r.organization_id a = some ⟨.member, .active, none⟩ :=
    view_get_of_put (k := .member r.organization_id a) (by simp [hws]) (by simp [hws])
  have hputs : ∀ k x, Write.put k x ∈ ws → (∀ x, shown k x = none)
      ∨ k = .member r.organization_id a
      ∨ (k = .invite i ∧ ∀ y, x = some y → tenant k y = some r.organization_id) := by
    intro k x hx
    simp only [hws, List.mem_cons, List.not_mem_nil, or_false] at hx
    obtain hx | hx | hx | hx | hx := hx <;> cases hx
    · exact .inr (.inr ⟨rfl, by rintro _ ⟨⟩; rfl⟩)
    · exact .inl fun _ => rfl
    · exact .inl fun _ => rfl
    · exact .inr (.inl rfl)
  by_cases ho : r.organization_id = o
  · subst ho
    have hevents : eventsOf r.organization_id (logs ws) = [.member_invited a i] := by
      simp [hlogs, eventsOf]
    rw [hevents]
    funext k
    change shownIn r.organization_id k _ = ((db.ledger r.organization_id).revise
      (.member r.organization_id a) fun _ => some (.member, .active)).revise (.invite i)
        (Option.map fun x => (x.1, x.2.1 + 1, x.2.2)) k
    -- The one event revises two rows; every other row that is written does not show.
    by_cases hk : k = .invite i
    · subst hk
      have hbefore : db.ledger r.organization_id (.invite i)
          = some (r.max_uses, r.used_count, r.revoked_at.isSome) :=
        (congrArg (shownIn r.organization_id (.invite i)) hr).trans (shownIn_of_tenant rfl)
      rw [Ledger.revise_self, Ledger.revise_of_ne (by simp), hbefore]
      exact (congrArg (shownIn r.organization_id (.invite i)) hinvite).trans (shownIn_of_tenant rfl)
    · rw [Ledger.revise_of_ne hk]
      by_cases hk' : k = .member r.organization_id a
      · subst hk'
        rw [Ledger.revise_self]
        exact (congrArg (shownIn r.organization_id (.member r.organization_id a)) hmember).trans
          (shownIn_of_tenant rfl)
      · rw [Ledger.revise_of_ne hk', Database.ledger]
        obtain hsame | hput := view_get ws db k
        · rw [hsame]
        · obtain hhidden | hkey | ⟨hkey, -⟩ := hputs k _ hput
          · rw [shownIn_hidden hhidden, shownIn_hidden hhidden]
          · exact absurd hkey hk'
          · exact absurd hkey hk
  · refine ledger_of_other ho (by simp [hlogs]) fun k x hx => ?_
    obtain hhidden | rfl | ⟨rfl, htenant⟩ := hputs k x hx
    · exact .inl hhidden
    · exact .inr fun _ _ => rfl
    · right
      rintro y (hy | hy)
      · cases hr.symm.trans hy
        rfl
      · exact htenant y hy

/-- **A commit moves the tables of every organization as its records say**: one revision for a
change of one row, and the three lemmas above for what writes more. -/
theorem CommitSpec.ledger (h : CommitSpec guarded q ws reply db) (o : OrganizationId) :
    (view ws db).ledger o = (eventsOf o (logs ws)).foldl (Ledger.record o) (db.ledger o) := by
  have hnothing : ∀ ws, ws = [] → (view ws db).ledger o
      = (eventsOf o (logs ws)).foldl (Ledger.record o) (db.ledger o) := by
    rintro _ rfl
    rfl
  obtain ⟨c, tx⟩ := q
  cases c with
  | create_person email hash name a =>
      obtain ⟨-, -, rfl⟩ := h
      refine ledger_of_unshown rfl ?_ o
      intro k r hr
      simp only [List.mem_cons, List.not_mem_nil, or_false] at hr
      obtain hr | hr := hr <;> cases hr <;> exact .inl fun _ => rfl
  | create_organization creator name slug o₁ => exact OrganizationCreated.ledger h o
  | change_member_role p o₁ a role =>
      obtain rfl | ⟨r, hr, -, -, -, hch⟩ := h
      · exact hnothing _ rfl
      · exact hch.ledger_update hr rfl rfl (fun _ => rfl) rfl o
  | suspend_member p o₁ a =>
      obtain ⟨r, hr, -, -, hch⟩ := h
      exact hch.ledger_update hr rfl rfl (fun _ => rfl) rfl o
  | reactivate_member p o₁ a =>
      obtain ⟨r, hr, -, hch⟩ := h
      exact hch.ledger_update hr rfl rfl (fun _ => rfl) rfl o
  | leave_service a => exact Departure.ledger h o
  | create_team p o₁ name t => exact h.2.ledger_insert h.1 rfl (fun _ => rfl) o
  | add_team_member p o₁ t a role => exact h.2.2.2.ledger_insert h.1 rfl (fun _ => rfl) o
  | change_team_member_role p o₁ t a role =>
      obtain rfl | ⟨r, hr, rfl, -, hch⟩ := h
      · exact hnothing _ rfl
      · exact hch.ledger_update hr rfl rfl (fun _ => rfl) rfl o
  | remove_team_member p o₁ t a =>
      obtain ⟨r, hr, rfl, hch⟩ := h
      exact hch.ledger_delete hr rfl (fun _ => rfl) o
  | create_channel p o₁ scope name ch => exact h.2.2.ledger_insert h.1 rfl (fun _ => rfl) o
  | add_channel_member p o₁ ch a => exact h.2.2.2.ledger_insert h.1 rfl (fun _ => rfl) o
  | create_invite p o₁ token expires n i =>
      obtain ⟨t, hash, -, hnew, -, -, hch⟩ := h
      exact hch.ledger_insert hnew rfl (fun _ => rfl) o
  | revoke_invite p o₁ i =>
      obtain rfl | ⟨i, r, -, hr, rfl, -, -, hch⟩ := h
      · exact hnothing _ rfl
      · exact hch.ledger_update hr rfl rfl (fun _ => rfl) rfl o
  | accept_invite hash email pw name a => exact InviteAccepted.ledger h o
  | post_message o₁ ch sender id body =>
      obtain ⟨m, -, ⟨-, -, x, hsent⟩ | ⟨-, -, hws⟩⟩ := h
      -- The counter of a channel is none of the columns that the log speaks of.
      · refine ledger_of_unshown (by rw [hsent.writes]; rfl) ?_ o
        intro k r hr
        simp only [hsent.writes, List.mem_cons, List.not_mem_nil, or_false] at hr
        obtain hr | hr := hr <;> cases hr
        · exact .inr ⟨x, _, hsent.channel, rfl, rfl, rfl⟩
        · exact .inl fun _ => rfl
      · exact hnothing ws hws
  | sign_in email verify token expires i =>
      obtain ⟨t, hash, -, b, -, -, -, rfl⟩ := h
      refine ledger_of_unshown rfl ?_ o
      intro k r hr
      cases List.mem_singleton.mp hr
      exact .inl fun _ => rfl
  | revoke_session a hash =>
      obtain ⟨i, x, now, -, rfl⟩ := h
      refine ledger_of_unshown rfl ?_ o
      intro k r hr
      cases List.mem_singleton.mp hr
      exact .inl fun _ => rfl
  | messages_before a o₁ ch before limit => exact hnothing ws h
  | messages_after a o₁ ch after limit => exact hnothing ws h
  | invite_is_usable hash => exact hnothing ws h
  | resolve_session hash => exact hnothing ws h
  | me a => exact hnothing ws h

/-! ## Role changes, and commits that change nothing -/

/-- Is this the record of a role that was changed from `old` to `new`, as `l` knows the row? -/
def RoleChangeIn (l : Ledger) (o : OrganizationId) : Event → Prop
  | .member_role_changed a old new => old ≠ new ∧ ∃ status, l (.member o a) = some (old, status)
  | .team_member_role_changed a t old new => old ≠ new ∧ l (.teamMember t a) = some old
  | _ => True

/-- The record of a role change stands alone, and gives the role the commit found. The row was
locked when it was read, so what was found is still there at the commit. -/
theorem CommitSpec.role_change (h : CommitSpec guarded q ws reply db) {row : AuditRow}
    (hrow : row ∈ logs ws) :
    RoleChangeIn (db.ledger row.organization_id) row.organization_id row.event
      ∧ ((∃ a old new, row.event = .member_role_changed a old new)
        ∨ (∃ a t old new, row.event = .team_member_role_changed a t old new) → logs ws = [row]) := by
  -- For an event that is no role change there is nothing to show.
  have hother : ∀ e : Event, (∀ a old new, e ≠ .member_role_changed a old new) →
      (∀ a t old new, e ≠ .team_member_role_changed a t old new) → row.event = e →
      RoleChangeIn (db.ledger row.organization_id) row.organization_id row.event
        ∧ ((∃ a old new, row.event = .member_role_changed a old new)
          ∨ (∃ a t old new, row.event = .team_member_role_changed a t old new) →
          logs ws = [row]) := by
    rintro e h₁ h₂ rfl
    refine ⟨?_, ?_⟩
    · generalize row.event = e at h₁ h₂
      cases e with
      | member_role_changed a old new => exact absurd rfl (h₁ a old new)
      | team_member_role_changed a t old new => exact absurd rfl (h₂ a t old new)
      | _ => trivial
    · rintro (⟨a, old, new, he⟩ | ⟨a, t, old, new, he⟩)
      · exact absurd he (h₁ a old new)
      · exact absurd he (h₂ a t old new)
  have hlog := mem_logs.mp hrow
  obtain ⟨c, tx⟩ := q
  cases c with
  | create_organization creator name slug o =>
      obtain ⟨-, -, -, rfl⟩ := h
      simp only [logs_put, logs_log, logs_nil, List.mem_cons, List.not_mem_nil, or_false] at hrow
      obtain rfl | rfl := hrow <;> exact hother _ (by simp) (by simp) rfl
  | change_member_role p o a role =>
      obtain rfl | ⟨r, hr, -, hne, -, hch⟩ := h
      · exact absurd hrow List.not_mem_nil
      · cases hch.mem_log hlog
        refine ⟨⟨hne, r.status, ?_⟩, fun _ => hch.logs_eq⟩
        exact (congrArg (shownIn o (.member o a)) hr).trans (shownIn_of_tenant rfl)
  | suspend_member p o a =>
      obtain ⟨r, -, -, -, hch⟩ := h
      cases hch.mem_log hlog
      exact hother _ (by simp) (by simp) rfl
  | reactivate_member p o a =>
      obtain ⟨r, -, -, hch⟩ := h
      cases hch.mem_log hlog
      exact hother _ (by simp) (by simp) rfl
  | leave_service a =>
      have hrec := ((h.records row).mp hlog).2
      refine hother row.event ?_ ?_ rfl
      · intro b old new he
        rw [he] at hrec
        exact hrec
      · intro b t old new he
        rw [he] at hrec
        exact hrec
  | create_team p o name t =>
      cases h.2.mem_log hlog
      exact hother _ (by simp) (by simp) rfl
  | add_team_member p o t a role =>
      cases h.2.2.2.mem_log hlog
      exact hother _ (by simp) (by simp) rfl
  | change_team_member_role p o t a role =>
      obtain rfl | ⟨r, hr, rfl, hne, hch⟩ := h
      · exact absurd hrow List.not_mem_nil
      · cases hch.mem_log hlog
        refine ⟨⟨hne, ?_⟩, fun _ => hch.logs_eq⟩
        exact (congrArg (shownIn r.organization_id (.teamMember t a)) hr).trans
          (shownIn_of_tenant rfl)
  | remove_team_member p o t a =>
      obtain ⟨r, -, -, hch⟩ := h
      cases hch.mem_log hlog
      exact hother _ (by simp) (by simp) rfl
  | create_channel p o scope name ch =>
      cases h.2.2.mem_log hlog
      exact hother _ (by simp) (by simp) rfl
  | add_channel_member p o ch a =>
      cases h.2.2.2.mem_log hlog
      exact hother _ (by simp) (by simp) rfl
  | create_invite p o token expires n i =>
      obtain ⟨t, hash, -, -, -, -, hch⟩ := h
      cases hch.mem_log hlog
      exact hother _ (by simp) (by simp) rfl
  | revoke_invite p o i =>
      obtain rfl | ⟨i, r, -, -, -, -, -, hch⟩ := h
      · exact absurd hrow List.not_mem_nil
      · cases hch.mem_log hlog
        exact hother _ (by simp) (by simp) rfl
  | accept_invite hash email pw name a =>
      obtain ⟨i, r, -, -, -, -, -, -, rfl⟩ := h
      cases List.mem_singleton.mp hrow
      exact hother _ (by simp) (by simp) rfl
  | create_person email hash name a =>
      obtain ⟨-, -, rfl⟩ := h
      exact absurd hrow List.not_mem_nil
  | post_message o ch sender id body =>
      obtain ⟨m, -, ⟨-, -, x, hsent⟩ | ⟨-, -, rfl⟩⟩ := h
      · rw [hsent.writes] at hrow
        exact absurd hrow List.not_mem_nil
      · exact absurd hrow List.not_mem_nil
  | sign_in email verify token expires i =>
      obtain ⟨t, hash, -, b, -, -, -, rfl⟩ := h
      exact absurd hrow List.not_mem_nil
  | revoke_session a hash =>
      obtain ⟨i, x, now, -, rfl⟩ := h
      exact absurd hrow List.not_mem_nil
  | _ =>
      cases h
      exact absurd hrow List.not_mem_nil

/-- A commit that leaves every row as it was leaves no record. Every call that writes a record also
writes a row that differs, be it only in a counter. -/
theorem CommitSpec.unrecorded (h : CommitSpec guarded q ws reply db)
    (hsame : ∀ k, (view ws db).rows.get k = db.rows.get k) : logs ws = [] := by
  -- A change of one row that writes another version of it is no such commit.
  have hchange : ∀ {p o e k} {r : Option (Row k)}, Change ws db p o e [.put k r] →
      db.rows.get k ≠ r → False :=
    fun hch hne => hne ((hsame _).symm.trans hch.row)
  obtain ⟨c, tx⟩ := q
  cases c with
  | create_organization creator name slug o =>
      obtain ⟨hnew, -, -, hws⟩ := h
      have hput : (view ws db).organization o = some ⟨name, slug⟩ :=
        view_get_of_put (k := .organization o) (by simp [hws]) (by simp [hws])
      cases hnew.symm.trans ((hsame _).symm.trans hput)
  | change_member_role p o a role =>
      obtain rfl | ⟨r, hr, -, hne, -, hch⟩ := h
      · rfl
      · refine (hchange hch fun heq => hne ?_).elim
        exact congrArg MemberRow.role (Option.some.inj (hr.symm.trans heq))
  | suspend_member p o a =>
      obtain ⟨r, hr, hstatus, -, hch⟩ := h
      refine (hchange hch fun heq => ?_).elim
      have hrow := congrArg MemberRow.status (Option.some.inj (hr.symm.trans heq))
      cases hstatus.symm.trans hrow
  | reactivate_member p o a =>
      obtain ⟨r, hr, hstatus, hch⟩ := h
      refine (hchange hch fun heq => ?_).elim
      have hrow := congrArg MemberRow.status (Option.some.inj (hr.symm.trans heq))
      cases hstatus.symm.trans hrow
  | leave_service a =>
      obtain ⟨r, hr, hdel⟩ := Departure.present h
      have hview := Departure.view_of_person (k := .actor a) h rfl hr rfl
      have hrow := (hsame (.actor a)).symm.trans hview
      have hrow' := congrArg ActorRow.deleted_at (Option.some.inj (hr.symm.trans hrow))
      cases hdel.symm.trans hrow'
  | create_team p o name t => exact (hchange h.2 fun heq => by cases h.1.symm.trans heq).elim
  | add_team_member p o t a role =>
      exact (hchange h.2.2.2 fun heq => by cases h.1.symm.trans heq).elim
  | change_team_member_role p o t a role =>
      obtain rfl | ⟨r, hr, -, hne, hch⟩ := h
      · rfl
      · refine (hchange hch fun heq => hne ?_).elim
        exact congrArg TeamMemberRow.role (Option.some.inj (hr.symm.trans heq))
  | remove_team_member p o t a =>
      obtain ⟨r, hr, -, hch⟩ := h
      exact (hchange hch fun heq => by cases hr.symm.trans heq).elim
  | create_channel p o scope name ch =>
      exact (hchange h.2.2 fun heq => by cases h.1.symm.trans heq).elim
  | add_channel_member p o ch a =>
      exact (hchange h.2.2.2 fun heq => by cases h.1.symm.trans heq).elim
  | create_invite p o token expires n i =>
      obtain ⟨t, hash, -, hnew, -, -, hch⟩ := h
      exact (hchange hch fun heq => by cases hnew.symm.trans heq).elim
  | revoke_invite p o i =>
      obtain rfl | ⟨i, r, -, hr, -, hopen, -, hch⟩ := h
      · rfl
      · refine (hchange hch fun heq => ?_).elim
        have hrow := congrArg InviteRow.revoked_at (Option.some.inj (hr.symm.trans heq))
        cases hopen.symm.trans hrow
  | accept_invite hash email pw name a =>
      obtain ⟨i, r, -, -, hnew, -, -, -, hws⟩ := h
      have hput : (view ws db).actor a = some ⟨.human, some name, none⟩ :=
        view_get_of_put (k := .actor a) (by simp [hws]) (by simp [hws])
      cases hnew.symm.trans ((hsame _).symm.trans hput)
  | create_person email hash name a =>
      obtain ⟨-, -, rfl⟩ := h
      rfl
  | post_message o ch sender id body =>
      obtain ⟨m, -, ⟨-, -, x, hsent⟩ | ⟨-, -, rfl⟩⟩ := h
      · rw [hsent.writes]
        rfl
      · rfl
  | sign_in email verify token expires i =>
      obtain ⟨t, hash, -, b, -, -, -, rfl⟩ := h
      rfl
  | revoke_session a hash =>
      obtain ⟨i, x, now, -, rfl⟩ := h
      rfl
  | _ =>
      cases h
      rfl

/-! ## Whole runs -/

/-- What the events of a log say of an organization, from the beginning. -/
def Ledger.of (o : OrganizationId) (rows : List AuditRow) : Ledger :=
  (eventsOf o rows).foldl (record o) empty

/-- A longer log is read by going on from where the shorter one ended. -/
theorem Ledger.of_append (o : OrganizationId) (rows rows' : List AuditRow) :
    Ledger.of o (rows ++ rows') = (eventsOf o rows').foldl (record o) (Ledger.of o rows) := by
  rw [Ledger.of, eventsOf_append, List.foldl_append, Ledger.of]

/-- The stored columns say no more and no less than the events they were written from; this is
where the proofs about events become a result about the stored log. -/
theorem Ledger.of_log_columns (o : OrganizationId) (rows : List AuditRow) :
    Ledger.of_log o (rows.map AuditRow.columns) = Ledger.of o rows := by
  have hread : ∀ (es : List AuditRow) (l : Ledger),
      (es.map AuditRow.columns).foldl (Ledger.read o) l
        = (es.map AuditRow.event).foldl (Ledger.record o) l := by
    intro es
    induction es with
    | nil => exact fun _ => rfl
    | cons row es ih =>
        intro l
        have hrow : Ledger.read o l row.columns = l.record o row.event := by
          rw [Ledger.read, columns_event]
          rfl
        rw [List.map_cons, List.map_cons, List.foldl_cons, List.foldl_cons, hrow]
        exact ih _
  rw [Ledger.of_log, List.filter_map, hread]
  rfl

/-- The log says what the tables hold, and each role change gives the role known by then. -/
structure Truthful (db : Database) : Prop where
  ledger : ∀ o, Ledger.of o db.audit_events = db.ledger o
  roles : ∀ pre row post, db.audit_events = pre ++ row :: post →
    RoleChangeIn (Ledger.of row.organization_id pre) row.organization_id row.event

/-- Of all other records there is nothing to show. -/
theorem RoleChangeIn.of_other {l : Ledger} {e : Event}
    (h : ¬ ((∃ a old new, e = .member_role_changed a old new)
      ∨ ∃ a t old new, e = .team_member_role_changed a t old new)) : RoleChangeIn l o e := by
  cases e with
  | member_role_changed a old new => exact absurd (.inl ⟨a, old, new, rfl⟩) h
  | team_member_role_changed a t old new => exact absurd (.inr ⟨a, t, old, new, rfl⟩) h
  | _ => trivial

/-- **Every commit keeps the log truthful.** The tables move as the new records say, and a role
change is recorded alone, so the log before it is the log the commit found. -/
theorem CommitSpec.truthful (h : CommitSpec guarded q ws reply db) (ht : Truthful db) :
    Truthful (view ws db) where
  ledger o := by
    rw [view_audit, Ledger.of_append, ht.ledger]
    exact (h.ledger o).symm
  roles pre row post heq := by
    rw [view_audit] at heq
    obtain ⟨new, hpre, hlogs⟩ | ⟨old, hold, hpost⟩ := List.append_eq_append_iff.mp heq
    · -- The record is one of this commit.
      have hrow : row ∈ logs ws := by simp [hlogs]
      obtain ⟨hrole, halone⟩ := h.role_change hrow
      by_cases hchange : (∃ a old new, row.event = .member_role_changed a old new)
          ∨ ∃ a t old new, row.event = .team_member_role_changed a t old new
      · have hnew : new = [] := by
          have hlen := congrArg List.length (hlogs.symm.trans (halone hchange))
          rw [List.length_append, List.length_cons, List.length_singleton] at hlen
          exact List.eq_nil_of_length_eq_zero (by omega)
        rw [hpre, hnew, List.append_nil, ht.ledger]
        exact hrole
      · exact RoleChangeIn.of_other hchange
    · -- It was there before, or it is the first of this commit.
      cases old with
      | nil =>
          have hrow : row ∈ logs ws := by
            rw [List.nil_append] at hpost
            simp [← hpost]
          rw [List.append_nil] at hold
          rw [← hold, ht.ledger]
          exact (h.role_change hrow).1
      | cons row' old =>
          rw [List.cons_append, List.cons.injEq] at hpost
          obtain ⟨rfl, -⟩ := hpost
          exact ht.roles pre row old hold

/-- An empty log says that there is nothing, and so it is. -/
theorem Truthful.empty : Truthful Database.empty where
  ledger _ := rfl
  roles pre row post h := by
    have hlen := congrArg List.length h
    simp [Database.empty] at hlen

/-- The log, as it is stored. -/
def Database.audit_log (db : Database) : List AuditColumns := db.audit_events.map AuditRow.columns

/-- If the columns are those of a role change: the role in `from` is the one that `l` knows, and
`to` is another. -/
structure AuditColumns.RoleChange (c : AuditColumns) (l : Ledger) : Prop where
  member : c.action = "organization.member.role_changed" → ∃ old new : OrganizationRole,
    c.text "from" = some old.as_str ∧ c.text "to" = some new.as_str ∧ old ≠ new
      ∧ ∃ status, l (.member c.organization_id ⟨c.target_id⟩) = some (old, status)
  team_member : c.action = "team.member.role_changed" → ∃ (t : Uuid) (old new : TeamRole),
    c.uuid "team_id" = some t ∧ c.text "from" = some old.as_str ∧ c.text "to" = some new.as_str
      ∧ old ≠ new ∧ l (.teamMember ⟨t⟩ ⟨c.target_id⟩) = some old

/-- What is shown of a role change as an event is shown of its stored columns. -/
theorem RoleChangeIn.columns {l : Ledger} {row : AuditRow}
    (h : RoleChangeIn l row.organization_id row.event) : row.columns.RoleChange l := by
  obtain ⟨o, p, e⟩ := row
  constructor
  · intro haction
    cases e with
    | member_role_changed a old new =>
        obtain ⟨hne, hstatus⟩ := h
        exact ⟨old, new, rfl, rfl, hne, hstatus⟩
    | _ => simp [AuditRow.columns, Event.action] at haction
  · intro haction
    cases e with
    | team_member_role_changed a t old new =>
        obtain ⟨hne, hrole⟩ := h
        exact ⟨t.uuid, old, new, rfl, rfl, rfl, hne, hrole⟩
    | _ => simp [AuditRow.columns, Event.action] at haction

/-- **The audit log is a complete and truthful history.** In every run, the records of every
organization as they are stored, folded from the beginning by the plain meaning of each action
and its metadata, give what its tables hold; each recorded role change differs from the role
known by then, which it names; and a call that failed or changed nothing left no record. -/
theorem audit_log_is_history {s : System} (h : (engine anyCall).Reachable World.empty s) :
    (∀ o, Ledger.of_log o s.world.store.audit_log = s.world.store.ledger o)
    ∧ (∀ pre c post, s.world.store.audit_log = pre ++ c :: post →
        c.RoleChange (Ledger.of_log c.organization_id pre))
    ∧ ∀ e ∈ s.world.history, ((∀ ws reply, e.outcome ≠ .committed ws reply)
        ∨ ∀ k, ((engine anyCall).after e.outcome e.before).rows.get k = e.before.rows.get k) →
        ((engine anyCall).after e.outcome e.before).audit_events = e.before.audit_events := by
  have ht : Truthful s.world.store := by
    refine Txn.Rules.Later.preserves (P := fun v : World => Truthful v.store) ?_
      (reachable_later h) Truthful.empty
    intro q L out w hw hg _ _
    cases out with
    | committed ws reply => exact hg.2.1.truthful hw
    | failed | aborted => exact hw
  refine ⟨fun o => (Ledger.of_log_columns o _).trans (ht.ledger o), ?_, ?_⟩
  · -- The stored log is cut where the records are.
    intro pre c post hlog
    obtain ⟨pre', rest, hrows, rfl, hrest⟩ := List.map_eq_append_iff.mp hlog
    obtain ⟨row, post', rfl, rfl, -⟩ := List.map_eq_cons_iff.mp hrest
    rw [Ledger.of_log_columns]
    exact (ht.roles pre' row post' hrows).columns
  intro e he hnothing
  obtain ⟨-, hspec⟩ := reachable_commit h he
  cases hout : e.outcome with
  | failed | aborted => rfl
  | committed ws reply =>
      rw [hout] at hnothing
      obtain hfailed | hsame := hnothing
      · exact absurd rfl (hfailed ws reply)
      · refine (view_audit ws e.before).trans ?_
        rw [(hspec ws reply hout).unrecorded hsame, List.append_nil]

/-- The founder of an organization, in its log. -/
theorem audit_log_is_history_founding : ∃ s : System,
    s.world.store.member ⟨10⟩ ⟨1⟩ = some ⟨.owner, .active, none⟩
      ∧ Ledger.of_log ⟨10⟩ s.world.store.audit_log (.member ⟨10⟩ ⟨1⟩) = some (.owner, .active) := by
  obtain ⟨s, hs, hcheck⟩ := reachable_of_serve 100 founding
    (fun s => s.world.store.member ⟨10⟩ ⟨1⟩ = some ⟨.owner, .active, none⟩) (by decide +kernel)
  have hmember := of_decide_eq_true hcheck
  refine ⟨s, hmember, ?_⟩
  rw [(audit_log_is_history hs).1]
  exact (congrArg (shownIn ⟨10⟩ (.member ⟨10⟩ ⟨1⟩)) hmember).trans (shownIn_of_tenant rfl)

end Fukulow
