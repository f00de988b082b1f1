/-
What the audit log of an organization says.

A `Ledger` holds, for each row of an organization, the columns that audit records speak of.
`Ledger.record` gives every event its plain meaning: it revises one row, or two for the
acceptance of an invite. The log itself is columns, so `Ledger.of_log` reads each event off
the action, the target and the metadata that are stored; nothing else tells them apart
(`columns_event`). `Database.ledger` reads the columns of the tables. That the two agree is the
subject of `Fukulow.AuditHistory`; here is how one revision compares with one write, and what
a run of removals does in whatever order.
-/
import Fukulow.Effects

set_option autoImplicit false

namespace Fukulow

/-- The columns of a row that the audit log speaks of. -/
@[reducible] def Shown : Key → Type
  | .member _ _ => OrganizationRole × MemberStatus
  | .team _ => Unit
  | .teamMember _ _ => TeamRole
  | .channel _ => ChannelScope
  | .channelMember _ _ => Unit
  | .invite _ => ℤ × ℤ × Bool
  | _ => Empty

/-- These columns of a stored row: of an invite, what it allows, how often it was used, and
whether it is revoked. -/
def shown : (k : Key) → Row k → Option (Shown k)
  | .member _ _, r => some (r.role, r.status)
  | .team _, _ => some ()
  | .teamMember _ _, r => some r.role
  | .channel _, r => some r.scope
  | .channelMember _ _, _ => some ()
  | .invite _, r => some (r.max_uses, r.used_count, r.revoked_at.isSome)
  | .actor _, _ | .user _, _ | .organization _, _ | .message _, _ | .session _, _ => none

/-- The rows of one organization, as the log knows them. -/
abbrev Ledger : Type := (k : Key) → Option (Shown k)

namespace Ledger

def empty : Ledger := fun _ => none

/-- Revise what is known of one row. -/
def revise (l : Ledger) (k : Key) (f : Option (Shown k) → Option (Shown k)) : Ledger :=
  Function.update l k (f (l k))

@[simp] theorem revise_self (l : Ledger) (k : Key) (f : Option (Shown k) → Option (Shown k)) :
    l.revise k f k = f (l k) := by
  simp only [revise, Function.update_self]

theorem revise_of_ne {l : Ledger} {k k' : Key} {f : Option (Shown k) → Option (Shown k)}
    (h : k' ≠ k) : l.revise k f k' = l k' := by
  simp only [revise, Function.update_of_ne h]

/-- The meaning of an event in the log of `o`. -/
def record (o : OrganizationId) (l : Ledger) : Event → Ledger
  | .organization_created _ => l
  | .member_added a role => l.revise (.member o a) fun _ => some (role, .active)
  | .member_invited a i =>
      (l.revise (.member o a) fun _ => some (.member, .active)).revise (.invite i)
        (Option.map fun x => (x.1, x.2.1 + 1, x.2.2))
  | .member_role_changed a _ role => l.revise (.member o a) (Option.map fun x => (role, x.2))
  | .member_suspended a => l.revise (.member o a) (Option.map fun x => (x.1, .suspended))
  | .member_reactivated a => l.revise (.member o a) (Option.map fun x => (x.1, .active))
  | .member_left a => l.revise (.member o a) (Option.map fun x => (x.1, .left))
  | .team_created t => l.revise (.team t) fun _ => some ()
  | .team_member_added a t role => l.revise (.teamMember t a) fun _ => some role
  | .team_member_role_changed a t _ role => l.revise (.teamMember t a) (Option.map fun _ => role)
  | .team_member_removed a t _ => l.revise (.teamMember t a) fun _ => none
  | .channel_created c scope => l.revise (.channel c) fun _ => some scope
  | .channel_member_added a c => l.revise (.channelMember c a) fun _ => some ()
  | .channel_member_left a c => l.revise (.channelMember c a) fun _ => none
  | .invite_created _ i n => l.revise (.invite i) fun _ => some (n, 0, false)
  | .invite_revoked _ i => l.revise (.invite i) (Option.map fun x => (x.1, x.2.1, true))

end Ledger

/-! ## The stored columns -/

def OrganizationRole.of_str (s : String) : Option OrganizationRole :=
  [.owner, .admin, .member].find? fun role => role.as_str = s

def TeamRole.of_str (s : String) : Option TeamRole :=
  [.manager, .member].find? fun role => role.as_str = s

def RemovalReason.of_str (s : String) : Option RemovalReason :=
  [.removed, .leftService].find? fun reason => reason.as_str = s

namespace AuditColumns

variable (c : AuditColumns)

def text (key : String) : Option String :=
  match c.metadata.lookup key with
  | some (.text value) => some value
  | _ => none

def uuid (key : String) : Option Uuid :=
  match c.metadata.lookup key with
  | some (.uuid value) => some value
  | _ => none

def number (key : String) : Option ℤ :=
  match c.metadata.lookup key with
  | some (.number value) => some value
  | _ => none

/-- The event of that action, with what the target and the metadata say of it. -/
def named : Option Event :=
  match c.action with
  | "invite.created" => do
    let i ← c.uuid "invite_id"
    let n ← c.number "max_uses"
    return .invite_created ⟨c.target_id⟩ ⟨i⟩ n
  | "invite.revoked" => do
    let i ← c.uuid "invite_id"
    return .invite_revoked ⟨c.target_id⟩ ⟨i⟩
  | "organization.created" => some (.organization_created ⟨c.target_id⟩)
  | "organization.member.added" =>
    match c.uuid "invite_id" with
    | some i => some (.member_invited ⟨c.target_id⟩ ⟨i⟩)
    | none => do
      let role ← (c.text "role").bind OrganizationRole.of_str
      return .member_added ⟨c.target_id⟩ role
  | "organization.member.role_changed" => do
    let old ← (c.text "from").bind OrganizationRole.of_str
    let new ← (c.text "to").bind OrganizationRole.of_str
    return .member_role_changed ⟨c.target_id⟩ old new
  | "organization.member.suspended" => some (.member_suspended ⟨c.target_id⟩)
  | "organization.member.reactivated" => some (.member_reactivated ⟨c.target_id⟩)
  | "organization.member.left" => some (.member_left ⟨c.target_id⟩)
  | "team.created" => some (.team_created ⟨c.target_id⟩)
  | "team.member.added" => do
    let t ← c.uuid "team_id"
    let role ← (c.text "role").bind TeamRole.of_str
    return .team_member_added ⟨c.target_id⟩ ⟨t⟩ role
  | "team.member.role_changed" => do
    let t ← c.uuid "team_id"
    let old ← (c.text "from").bind TeamRole.of_str
    let new ← (c.text "to").bind TeamRole.of_str
    return .team_member_role_changed ⟨c.target_id⟩ ⟨t⟩ old new
  | "team.member.removed" => do
    let t ← c.uuid "team_id"
    let reason ← (c.text "reason").bind RemovalReason.of_str
    return .team_member_removed ⟨c.target_id⟩ ⟨t⟩ reason
  | "channel.created" =>
    match c.uuid "team_id" with
    | some t => some (.channel_created ⟨c.target_id⟩ (.team ⟨t⟩))
    | none => some (.channel_created ⟨c.target_id⟩ .organization)
  | "channel.member.added" => do
    let channel ← c.uuid "channel_id"
    return .channel_member_added ⟨c.target_id⟩ ⟨channel⟩
  | "channel.member.removed" => do
    let channel ← c.uuid "channel_id"
    return .channel_member_left ⟨c.target_id⟩ ⟨channel⟩
  | _ => none

/-- The event whose columns these are, if they are of one. -/
def event : Option Event :=
  c.named.filter fun e => AuditRow.columns ⟨c.organization_id, c.actor_id, e⟩ = c

end AuditColumns

/-- Action by action: the target and the metadata under the names that the event writes them under
give back the event. -/
theorem columns_named (row : AuditRow) : row.columns.named = some row.event := by
  obtain ⟨o, p, e⟩ := row
  cases e with
  | member_added a role => cases role <;> rfl
  | member_role_changed a old new => cases old <;> cases new <;> rfl
  | team_member_added a t role => cases role <;> rfl
  | team_member_role_changed a t old new => cases old <;> cases new <;> rfl
  | team_member_removed a t reason => cases reason <;> rfl
  | channel_created ch scope => cases scope <;> rfl
  | _ => rfl

/-- **Nothing is lost in the columns**: what is stored of a record is read back as that record. So
two different events are never stored alike. -/
theorem columns_event (row : AuditRow) : row.columns.event = some row.event := by
  rw [AuditColumns.event, columns_named, Option.filter_some]
  exact if_pos (decide_eq_true rfl)

/-- What one stored record says. -/
def Ledger.read (o : OrganizationId) (l : Ledger) (c : AuditColumns) : Ledger :=
  c.event.elim l (l.record o)

/-- What a log says of an organization, read from the beginning. -/
def Ledger.of_log (o : OrganizationId) (log : List AuditColumns) : Ledger :=
  (log.filter fun c => c.organization_id = o).foldl (Ledger.read o) Ledger.empty

/-- The events that a list of audit rows records for `o`, in order. -/
def eventsOf (o : OrganizationId) (rows : List AuditRow) : List Event :=
  (rows.filter fun row => row.organization_id = o).map AuditRow.event

@[simp] theorem eventsOf_nil (o : OrganizationId) : eventsOf o [] = [] := rfl

@[simp] theorem eventsOf_append (o : OrganizationId) (rows rows' : List AuditRow) :
    eventsOf o (rows ++ rows') = eventsOf o rows ++ eventsOf o rows' := by
  simp only [eventsOf, List.filter_append, List.map_append]

/-- One record is an event of its own organization, and of no other. -/
theorem eventsOf_single (o o' : OrganizationId) (p : ActorId) (e : Event) :
    eventsOf o' [⟨o, p, e⟩] = if o = o' then [e] else [] := by
  by_cases h : o = o' <;> simp [eventsOf, h]

/-- The events of an organization are those of its records. -/
theorem mem_eventsOf {o : OrganizationId} {rows : List AuditRow} {e : Event} :
    e ∈ eventsOf o rows ↔ ∃ row ∈ rows, row.organization_id = o ∧ row.event = e := by
  simp [eventsOf, and_assoc]

/-! ## The same columns in the tables -/

/-- The shown columns of a row, when it is a row of `o`. -/
def shownIn (o : OrganizationId) (k : Key) (r : Option (Row k)) : Option (Shown k) :=
  (r.filter fun x => tenant k x = some o).bind (shown k)

/-- What the tables hold of the organization. -/
def Database.ledger (db : Database) (o : OrganizationId) : Ledger :=
  fun k => shownIn o k (db.rows.get k)

section Shown

variable {o : OrganizationId} {k : Key} {x : Row k}

@[simp] theorem shownIn_none : shownIn o k none = none := rfl

/-- A row of the organization shows all its columns that the log speaks of. -/
theorem shownIn_of_tenant (h : tenant k x = some o) : shownIn o k (some x) = shown k x := by
  simp [shownIn, Option.filter, h]

/-- A row of another organization, or of none, does not show. -/
theorem shownIn_eq_none {r : Option (Row k)} (h : ∀ x, r = some x → tenant k x ≠ some o) :
    shownIn o k r = none := by
  cases r with
  | none => rfl
  | some x => simp [shownIn, Option.filter, h x rfl]

/-- The log does not speak of the row: people, users, organizations, messages and sessions are in
no ledger. -/
theorem shownIn_hidden (h : ∀ x, shown k x = none) (r : Option (Row k)) : shownIn o k r = none := by
  cases r with
  | none => rfl
  | some x =>
      cases hfilter : (some x).filter fun x => tenant k x = some o <;> simp [shownIn, hfilter, h]

end Shown

variable {ws : List Write} {db : Database}

/-- **One change, one revision.** A change of a row of `o` whose record revises that row the way
the write does moves the tables and the log alike: in `o` by that revision, and in every other
organization not at all. -/
theorem Change.ledger {p : ActorId} {o : OrganizationId} {e : Event} {k : Key}
    {r : Option (Row k)} (h : Change ws db p o e [.put k r])
    (hrow : ∀ x, db.rows.get k = some x ∨ r = some x → tenant k x = some o)
    {f : Option (Shown k) → Option (Shown k)}
    (he : ∀ l : Ledger, l.record o e = l.revise k f)
    (hf : f (shownIn o k (db.rows.get k)) = shownIn o k r) (o' : OrganizationId) :
    (view ws db).ledger o' = (eventsOf o' (logs ws)).foldl (Ledger.record o') (db.ledger o') := by
  rw [h.logs_eq, eventsOf_single]
  funext k'
  by_cases ho : o = o'
  · subst ho
    rw [if_pos rfl, List.foldl_cons, List.foldl_nil, he]
    by_cases hk : k' = k
    · subst hk
      rw [Ledger.revise_self, Database.ledger, h.row]
      exact hf.symm
    · rw [Ledger.revise_of_ne hk, Database.ledger, h.other hk, Database.ledger]
  · -- In another organization the row shows neither before nor after.
    rw [if_neg ho, List.foldl_nil]
    by_cases hk : k' = k
    · subst hk
      have hother : ∀ x, db.rows.get k' = some x ∨ r = some x → tenant k' x ≠ some o' :=
        fun x hx hx' => ho (Option.some.inj ((hrow x hx).symm.trans hx'))
      rw [Database.ledger, h.row, Database.ledger, shownIn_eq_none fun x hx => hother x (.inr hx),
        shownIn_eq_none fun x hx => hother x (.inl hx)]
    · rw [Database.ledger, h.other hk, Database.ledger]

/-- A new row: its record gives the columns outright, whatever was known of the row. -/
theorem Change.ledger_insert {p : ActorId} {o : OrganizationId} {e : Event} {k : Key} {x : Row k}
    (h : Change ws db p o e [.put k (some x)]) (hnew : db.rows.get k = none)
    (hx : tenant k x = some o) (he : ∀ l : Ledger, l.record o e = l.revise k fun _ => shown k x)
    (o' : OrganizationId) :
    (view ws db).ledger o' = (eventsOf o' (logs ws)).foldl (Ledger.record o') (db.ledger o') := by
  refine h.ledger ?_ he (shownIn_of_tenant hx).symm o'
  rintro y (hy | hy)
  · cases hnew.symm.trans hy
  · cases hy
    exact hx

/-- A new version of a row, which stays in its organization: its record revises what was known of
it. -/
theorem Change.ledger_update {p : ActorId} {o : OrganizationId} {e : Event} {k : Key} {x y : Row k}
    (h : Change ws db p o e [.put k (some y)]) (hold : db.rows.get k = some x)
    (hx : tenant k x = some o) (hy : tenant k y = some o)
    {f : Option (Shown k) → Option (Shown k)} (he : ∀ l : Ledger, l.record o e = l.revise k f)
    (hf : f (shown k x) = shown k y) (o' : OrganizationId) :
    (view ws db).ledger o' = (eventsOf o' (logs ws)).foldl (Ledger.record o') (db.ledger o') := by
  refine h.ledger ?_ he ?_ o'
  · rintro z (hz | hz)
    · cases hold.symm.trans hz
      exact hx
    · cases hz
      exact hy
  · rw [hold, shownIn_of_tenant hx, shownIn_of_tenant hy, hf]

/-- A deletion: from then on the log, too, knows nothing of the row. -/
theorem Change.ledger_delete {p : ActorId} {o : OrganizationId} {e : Event} {k : Key} {x : Row k}
    (h : Change ws db p o e [.put k none]) (hold : db.rows.get k = some x)
    (hx : tenant k x = some o) (he : ∀ l : Ledger, l.record o e = l.revise k fun _ => none)
    (o' : OrganizationId) :
    (view ws db).ledger o' = (eventsOf o' (logs ws)).foldl (Ledger.record o') (db.ledger o') := by
  refine h.ledger ?_ he rfl o'
  rintro z (hz | hz)
  · cases hold.symm.trans hz
    exact hx
  · cases hz

/-- Does the write leave the shown columns as they are? -/
def Unshown (db : Database) (k : Key) (r : Option (Row k)) : Prop :=
  (∀ x, shown k x = none) ∨ ∃ x y, db.rows.get k = some x ∧ r = some y
    ∧ tenant k y = tenant k x ∧ shown k y = shown k x

/-- Writes without a record, and without a change of a shown column: the log has nothing to say,
and the tables still agree with it. -/
theorem ledger_of_unshown (hlogs : logs ws = [])
    (hputs : ∀ k r, Write.put k r ∈ ws → Unshown db k r) (o : OrganizationId) :
    (view ws db).ledger o = (eventsOf o (logs ws)).foldl (Ledger.record o) (db.ledger o) := by
  rw [hlogs]
  funext k
  change shownIn o k _ = shownIn o k _
  obtain hsame | hput := view_get ws db k
  · rw [hsame]
  · obtain hhidden | ⟨x, y, hx, hy, htenant, hshown⟩ := hputs k _ hput
    · rw [shownIn_hidden hhidden, shownIn_hidden hhidden]
    · rw [hx, hy]
      by_cases ho : tenant k x = some o
      · rw [shownIn_of_tenant ho, shownIn_of_tenant (htenant.trans ho), hshown]
      · have hother : ∀ z, z = x ∨ z = y → tenant k z ≠ some o := by
          rintro z (rfl | rfl)
          · exact ho
          · exact htenant ▸ ho
        rw [shownIn_eq_none (by rintro _ ⟨⟩; exact hother y (.inr rfl)),
          shownIn_eq_none (by rintro _ ⟨⟩; exact hother x (.inl rfl))]

/-! ## Removals -/

/-- The row that the record of a departure revises. -/
def Event.leaves (o : OrganizationId) : Event → Option Key
  | .member_left a => some (.member o a)
  | .team_member_removed a t .leftService => some (.teamMember t a)
  | .channel_member_left a c => some (.channelMember c a)
  | _ => none

/-- What a departure makes of the shown columns. -/
def leftAt : (k : Key) → Option (Shown k) → Option (Shown k)
  | .member _ _, x => x.map fun x => (x.1, .left)
  | .teamMember _ _, _ | .channelMember _ _, _ => none
  | .team _, x => x
  | .channel _, x => x
  | .invite _, x => x
  | .actor _, x => x
  | .user _, x => x
  | .organization _, x => x
  | .message _, x => x
  | .session _, x => x

/-- To leave twice is to leave once, which is why the order of the records of a departure, and a
row written twice, do not matter. -/
theorem leftAt_idem (k : Key) (x : Option (Shown k)) : leftAt k (leftAt k x) = leftAt k x := by
  cases k with
  | member o a => cases x <;> rfl
  | _ => rfl

/-- The record of a departure revises the one row it is about, as the departure does. -/
theorem record_leaves {o : OrganizationId} {e : Event} {k : Key} (h : e.leaves o = some k)
    (l : Ledger) : l.record o e = l.revise k (leftAt k) := by
  cases e with
  | member_left a => cases h; rfl
  | team_member_removed a t reason => cases reason <;> cases h; rfl
  | channel_member_left a c => cases h; rfl
  | _ => cases h

/-- **Removals in any order.** A row that some record revises is gone or left, the others are as
they were; how often and in which order the records come makes no difference. -/
theorem foldl_leaves {o : OrganizationId} (es : List Event) (l : Ledger)
    (hes : ∀ e ∈ es, ∃ k, e.leaves o = some k) (k : Key) :
    es.foldl (Ledger.record o) l k
      = if k ∈ es.filterMap (Event.leaves o) then leftAt k (l k) else l k := by
  induction es generalizing l with
  | nil => rfl
  | cons e es ih =>
      obtain ⟨k₀, hk₀⟩ := hes e List.mem_cons_self
      rw [List.foldl_cons, ih _ fun e' he' => hes e' (List.mem_cons_of_mem _ he'),
        record_leaves hk₀, List.filterMap_cons_some hk₀]
      by_cases hk : k = k₀
      · subst hk
        by_cases hmem : k ∈ es.filterMap (Event.leaves o) <;> simp [hmem, leftAt_idem]
      · simp [hk, Ledger.revise_of_ne hk]

end Fukulow
