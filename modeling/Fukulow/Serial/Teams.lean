/-
`operations/teams.rs` and the listings of `operations/channels.rs`, run alone: none of them
fails once its own checks have passed.
-/
import Fukulow.Operations.Channels
import Fukulow.Serial.Rules

set_option autoImplicit false

namespace Fukulow

variable {db₀ db : Database} {tx : Transaction} {p a : ActorId} {o : OrganizationId} {team : TeamId}

/-- What the performer sees of its own organization: it is one of its active ones. -/
theorem active_organizations_begin (hp : db.active o p = true) :
    fukulow_active_organizations (begin tx (.actor p)) db o = true := by
  rwa [active_organizations_actor rfl]

/-- **`add_team_member`, alone.** Each refusal is one of its own checks, made before anything is
written; the foreign keys and the policies then find what the checks found. -/
theorem solo_add_team_member {role : TeamRole} (href : References db) :
    (add_team_member tx p o team a role).Solo Write.apply db₀ (fun _ _ => True)
      (fun e => e = .notFound ∨ e = .actorDeparted ∨ e = .notAnActiveMember ∨ e = .alreadyMember)
      db := by
  unfold add_team_member
  rw [Txn.Prog.solo_bind, solo_lift, solo_lock_actor, Txn.Prog.solo_bind, solo_lift,
    solo_lock_organization rfl href.organization_of_active]
  cases hp : db.active o p with
  | false => exact .inl rfl
  | true =>
      simp only [Bool.not_true, Bool.false_eq_true, if_false]
      rw [Txn.Prog.solo_bind, solo_lift, select_team, solo_select, Txn.Prog.solo_bind, solo_lift,
        solo_member rfl hp]
      cases hteam : (db.team team).any fun r => r.organization_id = o
        && teams_select (begin tx (.actor p)) db r with
      | false => exact .inl rfl
      | true =>
          simp only [Bool.not_true, Bool.false_eq_true, if_false]
          cases hr : db.member o a with
          | none => exact .inl rfl
          | some r =>
              simp only [Option.map_some]
              split
              · exact .inr (.inl rfl)
              split
              · exact .inr (.inr (.inl rfl))
              have hadm : ∀ row : TeamMemberRow, row.organization_id = o →
                  team_members_insert (begin tx (.actor p)) db row = true := by
                rintro row rfl
                exact active_organizations_begin hp
              -- All that the insert references was read before it.
              obtain ⟨horg, hactor⟩ := href.member o a r hr
              rw [Txn.Prog.solo_bind, solo_lift, solo_insert_or_nothing]
              · simp only [hadm, admit_if, if_true, List.find?_nil]
                by_cases htaken : (db.rows.get (.teamMember team a)).isSome = true
                · rw [if_pos htaken, Txn.Prog.solo_bind, solo_ensure]
                  exact ⟨(by rintro ⟨⟩), fun _ => .inr (.inr (.inr rfl))⟩
                · rw [if_neg htaken, Txn.Prog.solo_bind, solo_ensure]
                  refine ⟨fun _ => ?_, (by rintro ⟨⟩)⟩
                  exact solo_record rfl href hp (by rintro ⟨⟩) (by rintro ⟨⟩) (by rintro ⟨⟩) trivial
              · intro ref hmem
                simp only [List.mem_cons, List.not_mem_nil, or_false] at hmem
                obtain rfl | rfl | rfl | rfl := hmem
                · exact Reference.holds_of_put hactor (by rintro ⟨⟩)
                · exact Reference.holds_of_put horg (by rintro ⟨⟩)
                · obtain ⟨x, hx, hmatch⟩ := (Option.any_eq_true _ _).mp hteam
                  exact Reference.holds_of_some ((put_get_of_ne (by simp)).trans hx)
                    (Bool.and_eq_true_iff.mp hmatch).1
                · exact Reference.holds_of_put (Option.ne_none_iff_exists'.mpr ⟨r, hr⟩) (by rintro ⟨⟩)

/-- **`change_team_member_role`, alone.** All its refusals say the same, that there is nothing to
change here. -/
theorem solo_change_team_member_role {role : TeamRole} (href : References db) :
    (change_team_member_role tx p o team a role).Solo Write.apply db₀ (fun _ _ => True)
      (fun e => e = .notFound) db := by
  unfold change_team_member_role
  rw [Txn.Prog.solo_bind, solo_lift, solo_lock_actor, Txn.Prog.solo_bind, solo_lift,
    solo_lock_organization rfl href.organization_of_active]
  cases hp : db.active o p with
  | false => exact rfl
  | true =>
      simp only [Bool.not_true, Bool.false_eq_true, if_false]
      rw [Txn.Prog.solo_bind, solo_lift, solo_select]
      split
      · exact rfl
      rename_i row hrow
      obtain ⟨hget, hmatch⟩ := Option.filter_eq_some_iff.mp hrow
      obtain ⟨horg, hseen⟩ := Bool.and_eq_true_iff.mp hmatch
      have hactive : fukulow_active_organizations (begin tx (.actor p)) db row.organization_id
          = true := of_decide_eq_true horg ▸ active_organizations_begin hp
      split
      · exact trivial
      rw [Txn.Prog.solo_bind, solo_lift]
      refine solo_update_ok (r := row) ?_ (if_pos hactive)
        (solo_record rfl href hp (by rintro ⟨⟩) (by rintro ⟨⟩) (by rintro ⟨⟩) trivial)
      refine Option.filter_eq_some_iff.mpr ⟨hget, ?_⟩
      simp only [hseen, horg, team_members_update, hactive, Bool.and_self]

/-- **`remove_team_member`, alone.** The person need not be a member of the organization any more.
-/
theorem solo_remove_team_member (href : References db) :
    (remove_team_member tx p o team a).Solo Write.apply db₀ (fun _ _ => True)
      (fun e => e = .notFound) db := by
  unfold remove_team_member
  rw [Txn.Prog.solo_bind, solo_lift, solo_lock_actor, Txn.Prog.solo_bind, solo_lift,
    solo_lock_organization rfl href.organization_of_active]
  cases hp : db.active o p with
  | false => exact rfl
  | true =>
      simp only [Bool.not_true, Bool.false_eq_true, if_false]
      rw [Txn.Prog.solo_bind, solo_lift, solo_delete_where]
      · rw [Txn.Prog.solo_bind, solo_ensure]
        split
        · refine ⟨fun _ => ?_, (by rintro ⟨⟩)⟩
          exact solo_record rfl href hp (by rintro ⟨⟩) (by rintro ⟨⟩) (by rintro ⟨⟩) trivial
        · exact ⟨(by rintro ⟨⟩), fun _ => rfl⟩
      · intro db db' t hget
        simp only [hget]
      · split <;> simp
      · intro t ht
        split at ht
        · rename_i hany
          cases List.mem_singleton.mp ht
          obtain ⟨x, hx, hmatch⟩ := (Option.any_eq_true _ _).mp hany
          simp only [Bool.and_eq_true] at hmatch
          simp only [hx, Option.any_some, hmatch.1.1]
        · cases ht

/-- **`add_channel_member`, alone.** An outsider passes as well as a member: all that is asked of
the person is that it has not departed. -/
theorem solo_add_channel_member {channel : ChannelId} (href : References db) :
    (add_channel_member tx p o channel a).Solo Write.apply db₀ (fun _ _ => True)
      (fun e => e = .notFound ∨ e = .organizationScoped ∨ e = .actorDeparted ∨ e = .alreadyMember)
      db := by
  unfold add_channel_member
  rw [Txn.Prog.solo_bind, solo_lift, solo_lock_actor, Txn.Prog.solo_bind, solo_lift,
    solo_lock_organization rfl href.organization_of_active]
  cases hp : db.active o p with
  | false => exact .inl rfl
  | true =>
      simp only [Bool.not_true, Bool.false_eq_true, if_false]
      rw [Txn.Prog.solo_bind, solo_lift, solo_select]
      split
      · exact .inl rfl
      rename_i row hrow
      obtain ⟨hget, hmatch⟩ := Option.filter_eq_some_iff.mp hrow
      split
      · exact .inr (.inl rfl)
      rename_i hscope
      split
      · exact .inl rfl
      · exact .inr (.inr (.inl rfl))
      rename_i hseen
      -- Whom `lock_actor` has seen is there; a membership is asked for nowhere.
      have hactor : db.actor a ≠ none := by
        intro hnone
        simp [departed_seen, hnone] at hseen
      have hvisible : channel_members_insert (begin tx (.actor p)) db channel = true :=
        (Option.any_eq_true _ _).mpr ⟨row, hget, (Bool.and_eq_true_iff.mp hmatch).2⟩
      rw [Txn.Prog.solo_bind, solo_lift,
        solo_insert_from ((Option.any_eq_true _ _).mpr ⟨row, hget, hmatch⟩)]
      · simp only [hvisible, admit_if, if_true, List.find?_nil]
        by_cases htaken : (db.rows.get (.channelMember channel a)).isSome = true
        · rw [if_pos htaken, Txn.Prog.solo_bind, solo_ensure]
          exact ⟨(by rintro ⟨⟩), fun _ => .inr (.inr (.inr rfl))⟩
        · rw [if_neg htaken, Txn.Prog.solo_bind, solo_ensure]
          refine ⟨fun _ => ?_, (by rintro ⟨⟩)⟩
          exact solo_record rfl href hp (by rintro ⟨⟩) (by rintro ⟨⟩) (by rintro ⟨⟩) trivial
      · intro ref hmem
        simp only [List.mem_cons, List.not_mem_nil, or_false] at hmem
        obtain rfl | rfl := hmem
        · exact Reference.holds_of_put hactor (by rintro ⟨⟩)
        · refine Reference.holds_of_some ((put_get_of_ne (by simp)).trans hget) ?_
          simp [hscope, of_decide_eq_true (Bool.and_eq_true_iff.mp hmatch).1]

end Fukulow
