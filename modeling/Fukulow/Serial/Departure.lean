/-
`operations/leaving.rs`, run alone: the loops, the owner checks and the whole departure.
-/
import Fukulow.Serial.Leaving

set_option autoImplicit false

namespace Fukulow

variable {db₀ db t u : Database} {tx : Transaction} {a : ActorId} {o : OrganizationId}
variable {now : Instant} {st : Stage}

/-! ## The loops -/

section Loops

variable {ε : Type} [FromSql ε] {F : ε → Prop}

/-- One round of the membership loop. What the round needs of the state is still there, since the
stages before have written only rows of other organizations. -/
theorem solo_leave_membership {Q : Unit → Database → Prop} {r : MemberRow} (href : Linked db)
    (h : Departing tx.now a db st t) (ho : o ∉ st.organizations) (hm : o ∉ st.memberships)
    (hactor : st.actor = false) (hr : db.member o a = some r)
    (hQ : ∀ u, Departing tx.now a db { st with organizations := st.organizations ++ [o] } u →
      Q () u) :
    (do (leave_organization (begin tx (.actor a)) o a : Sql SqlError Unit)
        if r.status ≠ .left then
          ((Event.member_left a).write (begin tx (.actor a)) o a : Sql SqlError Unit) :
      Sql ε Unit).Solo Write.apply db₀ Q F t := by
  obtain ⟨horg, hpresent⟩ := href.member o a r hr
  obtain ⟨x, hx⟩ := Option.ne_none_iff_exists'.mp hpresent
  have ht : t.member o a = some r := h.unreached (k := .member o a) hr hm
  have horg' : t.organization o ≠ none := (h.organization o).trans_ne horg
  have hx' : t.actor a = some x := h.unreached (k := .actor a) hx (by simp [Stage.reached, hactor])
  rw [Txn.Prog.solo_bind, solo_lift]
  refine solo_leave_organization horg' (by simp [hx']) (by simp [ht]) ?_
  intro teams hnodup hmem
  rw [view_records]
  have hkeep : ∀ k : Key, (∀ x, Key.teamMember x a ≠ k) →
      (view (deletions (fun x => .teamMember x a) teams) t).rows.get k = t.rows.get k :=
    fun _ hk => view_deletions_of_not_mem fun x _ => hk x
  have haudit : (view (deletions (fun x => .teamMember x a) teams) t).audit_events
      = t.audit_events := by
    rw [view_audit, logs_deletions, List.append_nil]
  -- A membership that was left before has its record already.
  by_cases hleft : r.status = .left
  · rw [if_neg (not_not.mpr hleft), Txn.Prog.solo_pure]
    refine hQ _ (h.left_organization ho hr hnodup hmem rfl ?_)
    rw [if_pos hleft, List.append_nil, haudit]
  · rw [if_pos hleft, solo_lift, solo_event_write]
    · refine ⟨fun _ => hQ _ (h.left_organization ho hr hnodup hmem rfl ?_), fun hno => ?_⟩
      · simp only [Write.apply_log_audit, if_neg hleft, haudit, List.append_assoc]
      · rw [leaving_admitted ?_ (.inl rfl)] at hno
        · cases hno
        · exact (hkeep (.member o a) fun _ => (by rintro ⟨⟩)).trans_ne (by simp [ht])
    · exact (hkeep (.organization o) fun _ => (by rintro ⟨⟩)).trans_ne horg'
    · exact (hkeep (.actor a) fun _ => (by rintro ⟨⟩)).trans_ne (by simp [hx'])

/-- The membership loop: after it the stage has come to the organizations of all memberships, by
induction on the rounds. -/
theorem solo_leave_memberships {Q : Unit → Database → Prop}
    {rows : List (OrganizationId × MemberStatus)} (href : Linked db)
    (hrows : ∀ x ∈ rows, ∃ r, db.member x.1 a = some r ∧ r.status = x.2)
    (hnodup : (rows.map Prod.fst).Nodup)
    (hQ : ∀ u, Departing tx.now a db { organizations := rows.map Prod.fst } u → Q () u) :
    (rows.forM fun row => do
      (leave_organization (begin tx (.actor a)) row.1 a : Sql SqlError Unit)
      if row.2 ≠ .left then
        ((Event.member_left a).write (begin tx (.actor a)) row.1 a : Sql SqlError Unit) :
      Sql ε Unit).Solo Write.apply db₀ Q F db := by
  refine Txn.Prog.solo_mono (Txn.Prog.solo_forM
    (fun done u => Departing tx.now a db { organizations := done.map Prod.fst } u)
    Departing.start ?_) (fun _ => hQ) fun _ hF => hF
  rintro done ⟨o, status⟩ rest rfl t h
  obtain ⟨r, hr, rfl⟩ := hrows (o, status) (by simp)
  refine solo_leave_membership href h ?_ List.not_mem_nil rfl hr ?_
  · rw [List.map_append, List.nodup_append] at hnodup
    exact fun ho => hnodup.2.2 o ho o (by simp) rfl
  · intro u hu
    rwa [List.map_append]

/-- The loop over the organizations of the listings. An organization is there although the person
may never have been its member: the listing's foreign keys say so. -/
theorem solo_leave_all_channels {Q : Unit → Database → Prop} {os : List OrganizationId}
    (href : Linked db) (h : Departing tx.now a db st t) (hempty : st.channels = [])
    (hactor : st.actor = false) (hpresent : db.actor a ≠ none)
    (hos : ∀ o ∈ os, ∃ c r, db.channelMember c a = some r ∧ r.organization_id = o)
    (hnodup : os.Nodup) (hQ : ∀ u, Departing tx.now a db { st with channels := os } u → Q () u) :
    (os.forM fun o => (leave_channels (begin tx (.actor a)) o a : Sql SqlError Unit) :
      Sql ε Unit).Solo Write.apply db₀ Q F t := by
  refine Txn.Prog.solo_mono (Txn.Prog.solo_forM
    (fun done u => Departing tx.now a db { st with channels := done } u) ?_ ?_)
    (fun _ => hQ) fun _ hF => hF
  · rwa [← hempty]
  · rintro done o rest rfl t h
    obtain ⟨c, r, hr, rfl⟩ := hos o (by simp)
    obtain ⟨-, y, hy, hyo, -⟩ := href.channelMember c a r hr
    have horg : t.organization r.organization_id ≠ none :=
      (h.organization _).trans_ne (hyo ▸ (href.channel c y hy).1)
    obtain ⟨x, hx⟩ := Option.ne_none_iff_exists'.mp hpresent
    have hx' : t.actor a = some x := h.unreached (k := .actor a) hx (by simp [Stage.reached, hactor])
    rw [solo_lift]
    refine solo_leave_channels horg (by simp [hx']) ?_
    intro channels hnodup' hmem
    refine h.left_channels ?_ hnodup' hmem ?_ ?_
    · rw [List.nodup_append] at hnodup
      exact fun ho => hnodup.2.2 _ ho _ List.mem_cons_self rfl
    · rw [view_records]
      exact view_rows_congr rfl
    · rw [view_audit, logs_deletions, List.append_nil, view_records]

/-- One membership is closed. The trigger and the policy look at its row and at the actor's,
neither of which the departure has written yet. -/
theorem solo_close_membership {Q : Unit → Database → Prop} {F : SqlError → Prop} {r : MemberRow}
    (h : Departing tx.now a db st t) (hm : o ∉ st.memberships) (hr : db.member o a = some r)
    (hQ : ∀ u, Departing tx.now a db { st with memberships := st.memberships ++ [o] } u → Q () u) :
    (update_member (begin tx (.actor a)) o a fun r =>
      { r with status := .left, display_name := none }).Solo Write.apply db₀ Q F t := by
  have ht : t.member o a = some r := h.unreached (k := .member o a) hr hm
  rw [solo_update_member ht (by simp [organization_members_update_using])
    (by simp [fukulow_guard_inactive_member_role]) (by simp [organization_members_update_check])]
  refine hQ _ (h.put (k := .member o a) (x := r) hr rfl ?_ ?_ ?_ fun o e => by cases e <;> exact Iff.rfl)
  · intro k tn hreached
    cases k with
    | member o' b => exact List.mem_append_left _ hreached
    | _ => exact hreached
  · intro k y hp hreached
    cases k with
    | member o' b =>
        cases hp
        obtain hbefore | hnew := List.mem_append.mp hreached
        · exact .inl hbefore
        · cases List.mem_singleton.mp hnew
          exact .inr rfl
    | _ => exact .inl hreached
  · exact List.mem_append_right _ List.mem_cons_self

/-- The loop that closes the memberships, each in its own round. -/
theorem solo_close_memberships {Q : Unit → Database → Prop}
    {rows : List (OrganizationId × MemberStatus)} (h : Departing tx.now a db st t)
    (hempty : st.memberships = []) (hrows : ∀ x ∈ rows, ∃ r, db.member x.1 a = some r)
    (hnodup : (rows.map Prod.fst).Nodup)
    (hQ : ∀ u, Departing tx.now a db { st with memberships := rows.map Prod.fst } u → Q () u) :
    (rows.forM fun row =>
      (update_member (begin tx (.actor a)) row.1 a (fun r =>
        { r with status := .left, display_name := none }) : Sql SqlError Unit) :
      Sql ε Unit).Solo Write.apply db₀ Q F t := by
  refine Txn.Prog.solo_mono (Txn.Prog.solo_forM
    (fun done u => Departing tx.now a db { st with memberships := done.map Prod.fst } u) ?_ ?_)
    (fun _ => hQ) fun _ hF => hF
  · rwa [List.map_nil, ← hempty]
  · rintro done row rest rfl t h
    obtain ⟨r, hr⟩ := hrows row (by simp)
    rw [solo_lift]
    refine solo_close_membership h ?_ hr ?_
    · rw [List.map_append, List.nodup_append] at hnodup
      exact fun ho => hnodup.2.2 _ ho row.1 (by simp) rfl
    · intro u hu
      rwa [List.map_append]

end Loops

/-! ## The person's own rows -/

/-- The user and its sessions. A person without a user has no sessions either, so the cascade that
does not run has nothing to do. -/
theorem solo_delete_user {Q : Unit → Database → Prop} {F : SqlError → Prop} (href : Linked db)
    (h : Departing tx.now a db st t) (huser : st.user = false) (hsessions : st.sessions = false)
    (hQ : ∀ u, Departing tx.now a db { st with user := true, sessions := true } u → Q () u) :
    (delete_user (begin tx (.actor a)) a).Solo Write.apply db₀ Q F t := by
  have hfound : ∀ b, b ∈ (if (t.user a).any fun r => users_select (begin tx (.actor a)) a r
      && users_delete (begin tx (.actor a)) a then [a] else []) ↔
        b = a ∧ ∃ x, t.user a = some x := by
    intro b
    cases t.user a <;> simp [users_select, users_delete]
  unfold delete_user
  rw [Txn.Prog.solo_bind, solo_delete_where]
  · generalize hgen : (if (t.user a).any fun r => users_select (begin tx (.actor a)) a r
      && users_delete (begin tx (.actor a)) a then [a] else []) = found at hfound ⊢
    have hdep : Departing tx.now a db { st with user := true }
        (view (deletions Key.user found) t) := by
      refine h.delete_only ?_ (fun o e => by cases e <;> exact Iff.rfl) ?_ ?_
      · intro k tn hreached
        cases k with
        | user => rfl
        | _ => exact hreached
      · intro k
        constructor
        · rintro ⟨b, hb, rfl⟩
          obtain ⟨rfl, x, hx⟩ := (hfound b).mp hb
          obtain ⟨hdb, hbefore⟩ := h.seen (k := .user b) (fun _ => rfl) (fun _ => rfl) hx
          exact ⟨x, hdb, rfl, rfl, hbefore⟩
        · rintro ⟨x, hx, hp, hafter, hbefore⟩
          cases k with
          | user b =>
              cases hp
              exact ⟨a, (hfound a).mpr ⟨rfl, x, h.unreached hx hbefore⟩, rfl⟩
          | _ => exact absurd hafter hbefore
      · intro k x hafter hbefore
        cases k with
        | user => rfl
        | _ => exact absurd hafter hbefore
    -- The sessions that there are, when the user was there.
    have hsess : ∀ {is : List SessionId}, (∀ i, i ∈ is ↔ ∃ r, db.session i = some r ∧ r.actor_id = a) →
        Departing tx.now a db { st with user := true, sessions := true }
          (view (deletions Key.session is) (view (deletions Key.user found) t)) := by
      intro is his
      refine hdep.delete_only ?_ (fun o e => by cases e <;> exact Iff.rfl) ?_ ?_
      · intro k tn hreached
        cases k with
        | session => rfl
        | _ => exact hreached
      · intro k
        constructor
        · rintro ⟨i, hi, rfl⟩
          obtain ⟨x, hx, hxa⟩ := (his i).mp hi
          exact ⟨x, hx, congrArg some hxa, rfl, by simp [Stage.reached, hsessions]⟩
        · rintro ⟨x, hx, hp, hafter, hbefore⟩
          cases k with
          | session i => exact ⟨i, (his i).mpr ⟨x, hx, Option.some.inj hp⟩, rfl⟩
          | _ => exact absurd hafter hbefore
      · intro k x hafter hbefore
        cases k with
        | session => rfl
        | _ => exact absurd hafter hbefore
    have hseen : ∀ i, (view (deletions Key.user found) t).session i = db.session i := fun i =>
      hdep.kept (.session i) fun _ _ _ => by simp [Stage.reached, hsessions]
    split
    · rw [Txn.Prog.solo_bind, solo_delete_where]
      · refine hQ _ (hsess fun i => mem_own_sessions.trans ?_)
        rw [hseen]
      · intro db db' i hget
        simp only [hget]
      · exact (Txn.Store.nodup_select _ _).map fun i i' heq => by simpa using heq
      · intro i hi
        obtain ⟨r, hr, hra⟩ := mem_own_sessions.mp hi
        simp [hr, hra]
    · rename_i hempty
      have hnone : ∀ i, i ∈ ([] : List SessionId) ↔ ∃ r, db.session i = some r ∧ r.actor_id = a := by
        refine fun i => ⟨(by rintro ⟨⟩), ?_⟩
        rintro ⟨r, hr, rfl⟩
        obtain ⟨x, hx⟩ := Option.ne_none_iff_exists'.mp (href.session i r hr)
        have hx' : t.user r.actor_id = some x :=
          h.unreached (k := .user r.actor_id) hx (by simp [Stage.reached, huser])
        have hmem := (hfound r.actor_id).mpr ⟨rfl, x, hx'⟩
        simp only [Bool.not_eq_true', Bool.not_eq_false, List.isEmpty_iff] at hempty
        rw [hempty] at hmem
        cases hmem
      exact hQ _ (hsess hnone)
  · intro db db' b hget
    simp only [hget]
  · split <;> simp
  · intro b hb
    obtain ⟨rfl, x, hx⟩ := (hfound b).mp hb
    simp [hx]

/-- The actor's row, last: everything before was allowed to a person who had not departed. -/
theorem solo_close_actor {Q : Option ActorRow → Database → Prop} {F : SqlError → Prop}
    {x : ActorRow} (h : Departing tx.now a db st t) (hactor : st.actor = false)
    (hx : db.actor a = some x)
    (hQ : ∀ r u, Departing tx.now a db { st with actor := true } u → Q r u) :
    (update (.actor a) (fun db _ => actors_select (begin tx (.actor a)) db a
        && actors_update (begin tx (.actor a)) db a) (fun _ => true)
      (fun db old =>
        if actors_update (begin tx (.actor a)) db a then
          .ok { old with display_name := none, deleted_at := some (begin tx (.actor a)).now }
        else .error .insufficientPrivilege)).Solo Write.apply db₀ Q F t := by
  have hx' : t.rows.get (.actor a) = some x :=
    h.unreached (k := .actor a) hx (by simp [Stage.reached, hactor])
  have hself : actors_update (begin tx (.actor a)) t a = true := by simp [actors_update]
  have hfound : ((t.rows.get (.actor a)).filter fun _ => actors_select (begin tx (.actor a)) t a
      && actors_update (begin tx (.actor a)) t a && true) = some x := by
    rw [hx', Option.filter_some, if_pos (by simp [actors_select, hself])]
  refine solo_update_ok hfound (if_pos hself) (hQ _ _ (h.put (k := .actor a) hx rfl ?_ ?_ rfl
    fun o e => by cases e <;> exact Iff.rfl))
  · intro k tn hreached
    cases k with
    | actor => rfl
    | _ => exact hreached
  · intro k y hp hafter
    cases k with
    | actor b =>
        cases hp
        exact .inr rfl
    | _ => exact .inl hafter

/-! ## The owner checks -/

/-- Is the membership of `a` in `o` active, with nobody else active there as owner? -/
def Database.onlyWith (db : Database) (o : OrganizationId) (a : ActorId) : Prop :=
  db.active o a = true ∧ ¬ db.ownedWithout o a

/-- The owner checks pass, or stop at the first organization that depends on the person, in the
order of ids. -/
theorem solo_check_all_owners {Q : Unit → Database → Prop} {F : LeaveServiceError → Prop}
    (hQ : (∀ o, ¬ db.onlyWith o a) → Q () db)
    (hF : ∀ o, db.onlyWith o a → (∀ o', o' < o → ¬ db.onlyWith o' a) → F (.lastOwner o)) :
    ((active_memberships (begin tx (.actor a)) db a).forM fun organization => (do
      let owners ← (active_owners (begin tx (.actor a)) organization : Sql SqlError _)
      ensure (check_owner_change owners (.leave a)) (LeaveServiceError.lastOwner organization) :
      Sql LeaveServiceError Unit)).Solo Write.apply db₀ Q F db := by
  generalize hos : active_memberships (begin tx (.actor a)) db a = os
  have hmem : ∀ o, o ∈ os ↔ db.active o a = true := fun o => by rw [← hos, mem_active_memberships]
  have hsorted : os.Pairwise (· ≤ ·) := hos ▸ Txn.Store.sorted_selectSorted _ _
  refine Txn.Prog.solo_mono (Txn.Prog.solo_forM
    (fun done u => u = db ∧ ∀ o ∈ done, db.ownedWithout o a) ⟨rfl, by simp⟩ ?_) ?_ fun _ h => h
  · rintro done o rest rfl t ⟨rfl, hdone⟩
    have hactive : t.active o a = true := (hmem o).mp (by simp)
    rw [Txn.Prog.solo_bind, solo_lift, solo_active_owners, solo_ensure, Bool.eq_false_iff, Ne,
      check_owners_iff hactive]
    constructor
    · intro howned
      refine ⟨rfl, fun o' ho' => ?_⟩
      obtain ho' | ho' := List.mem_append.mp ho'
      · exact hdone o' ho'
      · cases List.mem_singleton.mp ho'
        exact howned
    · refine fun hnone => hF o ⟨hactive, hnone⟩ ?_
      rintro o' hlt ⟨hactive', hnone'⟩
      -- An organization below `o` was checked before.
      obtain hbefore | hrest := List.mem_append.mp ((hmem o').mpr hactive')
      · exact hnone' (hdone o' hbefore)
      · rw [List.pairwise_append] at hsorted
        obtain rfl | hrest := List.mem_cons.mp hrest
        · exact lt_irrefl _ hlt
        · exact absurd (List.rel_of_pairwise_cons hsorted.2.1 hrest) (not_le.mpr hlt)
  · rintro - t ⟨rfl, hall⟩
    exact hQ fun o ho => ho.2 (hall o ((hmem o).mpr ho.1))

/-! ## The whole departure -/

/-- What a departure at `now` leaves of `db`: the rows about the person as the departure makes
them, all others as they were, and one record for each row that calls for one. -/
structure Departed (now : Instant) (a : ActorId) (db t : Database) : Prop where
  done : ∀ k x, db.rows.get k = some x → k.personal = true → person k x = some a →
    t.rows.get k = departing now k x
  kept : ∀ k, (∀ x, db.rows.get k = some x → k.personal = true → person k x ≠ some a) →
    t.rows.get k = db.rows.get k
  records : ∃ added, t.audit_events = db.audit_events ++ added ∧ added.Nodup
    ∧ ∀ row, row ∈ added ↔ LeavingRecord db a row

/-- The last stage covers everything personal, and no row of anybody else. -/
theorem Departing.departed (href : Linked db) (h : Departing now a db st t)
    (hmembers : ∀ o r, db.member o a = some r → o ∈ st.organizations ∧ o ∈ st.memberships)
    (hchannels : ∀ c r, db.channelMember c a = some r → r.organization_id ∈ st.channels)
    (hown : st.user = true ∧ st.sessions = true ∧ st.actor = true) : Departed now a db t where
  done k x hx hk hp := by
    refine h.done k x hx hp ?_
    cases k with
    | actor b => exact hown.2.2
    | user b => exact hown.1
    | session i => exact hown.2.1
    | member o b =>
        cases hp
        exact (hmembers o x hx).2
    -- By its foreign key there is a membership, and that was listed.
    | teamMember team b =>
        cases hp
        obtain ⟨m, hm⟩ := href.membership team a x hx
        exact ⟨_, (hmembers _ m hm).1, rfl⟩
    | channelMember c b =>
        cases hp
        exact ⟨_, hchannels c x hx, rfl⟩
    | _ => cases hk
  kept k hk := h.kept k fun x hx hp hreached => hk x hx (Stage.personal hreached) hp
  records := by
    obtain ⟨added, hadded, hnodup, hmem⟩ := h.records
    refine ⟨added, hadded, hnodup, fun row => (hmem row).trans (and_iff_right_of_imp ?_)⟩
    obtain ⟨o, p, e⟩ := row
    rintro ⟨rfl, hrec⟩
    cases e with
    | team_member_removed b team reason =>
        obtain ⟨rfl, rfl, r, hr, rfl⟩ := hrec
        obtain ⟨m, hm⟩ := href.membership team b r hr
        exact (hmembers _ m hm).1
    | member_left b =>
        obtain ⟨rfl, r, hr, -⟩ := hrec
        exact (hmembers o r hr).1
    | channel_member_left b c =>
        obtain ⟨rfl, r, hr, rfl⟩ := hrec
        exact hchannels c r hr
    | _ => exact hrec.elim

/-- **`leave_service`, alone**: complete in both directions. It succeeds exactly for a person who
is there and on whom no organization depends; what it leaves is `Departed`, and each refusal says
why. -/
theorem solo_leave_service (href : Linked db) :
    (leave_service tx a).Solo Write.apply db₀
      (fun _ t => db.present a ∧ (∀ o, ¬ db.onlyWith o a) ∧ Departed tx.now a db t)
      (fun e => e = .notFound ∧ ¬ db.present a ∨ ∃ o, e = .lastOwner o ∧ db.present a
        ∧ db.onlyWith o a ∧ ∀ o', o' < o → ¬ db.onlyWith o' a) db := by
  unfold leave_service
  rw [Txn.Prog.solo_bind, solo_lift, solo_select_locking]
  cases hactor : db.actor a with
  | none =>
      rw [show db.rows.get (.actor a) = none from hactor]
      exact .inl ⟨rfl, by
        rintro ⟨r, hr, -⟩
        cases hr.symm.trans hactor⟩
  | some x =>
      rw [show db.rows.get (.actor a) = some x from hactor, Option.filter_some,
        if_pos (by simp [actors_select, actors_update])]
      by_cases hdel : x.deleted_at.isSome = true
      · simp only [hdel, if_true]
        refine .inl ⟨rfl, ?_⟩
        rintro ⟨r, hr, hnone⟩
        cases hr.symm.trans hactor
        rw [hnone] at hdel
        cases hdel
      · simp only [hdel, Bool.false_eq_true, if_false]
        have hpresent : db.present a := ⟨x, hactor, by simpa using hdel⟩
        rw [Txn.Prog.solo_bind, solo_snapshot, Txn.Prog.solo_bind, solo_lift, solo_lock_rows,
          List.map_id', Txn.Prog.solo_bind]
        refine solo_check_all_owners (fun hfree => ?_)
          fun o ho hleast => .inr ⟨o, rfl, hpresent, ho, hleast⟩
        rw [Txn.Prog.solo_bind, solo_lift, solo_select, Txn.Prog.solo_bind, solo_lift, solo_select,
          Txn.Prog.solo_bind]
        -- The stages in the order of the operation, each behind what the ones before have done.
        have hnodup := nodup_memberships_of (begin tx (.actor a)) db a
        refine solo_leave_memberships href (fun row hrow => (mem_memberships_of tx).mp hrow) hnodup ?_
        intro t₁ h₁
        rw [Txn.Prog.solo_bind]
        refine solo_leave_all_channels href h₁ rfl rfl (by simp [hactor])
          (fun o => mem_listing_organizations.mp) (Txn.Store.nodup_selectSorted _ _) ?_
        intro t₂ h₂
        rw [Txn.Prog.solo_bind]
        refine solo_close_memberships h₂ rfl (fun row hrow => ?_) hnodup ?_
        · obtain ⟨r, hr, -⟩ := (mem_memberships_of tx).mp hrow
          exact ⟨r, hr⟩
        intro t₃ h₃
        rw [Txn.Prog.solo_bind, solo_lift]
        refine solo_delete_user href h₃ rfl rfl ?_
        intro t₄ h₄
        rw [Txn.Prog.solo_bind, solo_lift]
        refine solo_close_actor h₄ rfl hactor fun r t₅ h₅ => ⟨hpresent, hfree, ?_⟩
        -- The two listings together are all the rows that the person has.
        refine h₅.departed href ?_ ?_ ⟨rfl, rfl, rfl⟩
        · intro o r hr
          have ho := List.mem_map_of_mem (f := Prod.fst)
            ((mem_memberships_of tx).mpr ⟨r, hr, rfl⟩)
          exact ⟨ho, ho⟩
        · exact fun c r hr => mem_listing_organizations.mpr ⟨c, r, hr, rfl⟩

end Fukulow
