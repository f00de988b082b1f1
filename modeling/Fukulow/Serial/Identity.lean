/-
`operations/identity.rs`, run alone.
-/
import Fukulow.Serial.Rules

set_option autoImplicit false

namespace Fukulow

variable {db₀ db : Database} {tx : Transaction} {a : ActorId}

/-! ## People -/

/-- Does somebody use this email, whatever the case of its ASCII letters? -/
def Database.emailUsed (db : Database) (email : Text) : Prop :=
  ∃ b r, db.user b = some r ∧ lower r.email = lower email

theorem email_taken_iff {email : Text} :
    (email_index email).taken db = true ↔ db.emailUsed email := by
  refine Txn.Store.select_nonempty_iff.trans ⟨?_, ?_⟩
  · rintro ⟨k, r, b, hr, hread⟩
    cases k with
    | user c =>
        simp only [Option.ite_none_right_eq_some] at hread
        exact ⟨c, r, hr, hread.1⟩
    | _ => cases hread
  · rintro ⟨b, r, hr, hemail⟩
    exact ⟨.user b, r, b, hr, by simp [hemail]⟩

/-- Only a write of a user changes which emails are used. The actor's row, written first, does not.
-/
theorem emailUsed_put {email : Text} {k : Key} {r : Option (Row k)} (hk : ∀ b, Key.user b ≠ k) :
    ((Write.put k r).apply db).emailUsed email ↔ db.emailUsed email := by
  refine exists_congr fun b => exists_congr fun r' => and_congr_left' ?_
  rw [Database.user, put_get_of_ne (hk b)]

/-- **`create_person`, alone**, for a new id and texts that can be stored. It fails for one reason
only, an email in use, and otherwise writes the two rows in the order of the source. -/
theorem solo_create_person {Q : ActorId → Database → Prop} {F : CreatePersonError → Prop}
    {s : Settings} {email password_hash display_name : Text} (hactor : db.actor a = none)
    (huser : db.user a = none) (hemail : storable email = true)
    (hhash : storable password_hash = true) (hname : storable display_name = true) :
    (create_person s email password_hash display_name a).Solo Write.apply db₀ Q F db ↔
      (db.emailUsed email → F .emailTaken) ∧ (¬ db.emailUsed email →
        Q a ((Write.put (.user a) (some ⟨email, password_hash⟩)).apply
          ((Write.put (.actor a) (some ⟨.human, some display_name, none⟩)).apply db))) := by
  have hused : ((email_index email).taken
      ((Write.put (.actor a) (some ⟨.human, some display_name, none⟩)).apply db)) = true ↔
      db.emailUsed email := by
    rw [email_taken_iff, emailUsed_put (by simp)]
  have hadm : (set_context s (.actor a)).actor_id = some a := rfl
  unfold create_person
  rw [Txn.Prog.solo_bind, solo_lift, solo_insert (by simp) hactor]
  simp only [admit_if, hname, if_true, List.find?_nil]
  rw [Txn.Prog.solo_bind, Txn.Prog.solo_mapError, solo_insert]
  · simp only [hemail, hhash, users_insert, hadm, Bool.and_self, Bool.not_true,
      Bool.false_eq_true, if_false, decide_true, if_true, List.find?_cons, List.find?_nil]
    cases hcase : (email_index email).taken
      ((Write.put (.actor a) (some ⟨.human, some display_name, none⟩)).apply db) with
    | true =>
        have hyes := hused.mp hcase
        simp [hyes, SqlError.constraint, email_index]
    | false =>
        have hno : ¬ db.emailUsed email := fun h => by simp [hused.mpr h] at hcase
        simp [hno]
  · intro ref hmem
    cases List.mem_singleton.mp hmem
    exact Reference.holds_of_some
      ((put_get_of_ne (by simp)).trans (Txn.Store.get_put_self _ _ _)) rfl
  · exact (put_get_of_ne (by simp)).trans huser

/-! ## Organizations -/

/-- The founder's membership is admitted: the organization has no members yet, which the policy
asks for before there is anybody to be a member. -/
theorem founder_admitted {o : OrganizationId} (hnone : ∀ b, db.member o b = none) :
    organization_members_insert (begin tx (.actor a)) db o a ⟨.owner, .active, none⟩ = true := by
  have hempty : fukulow_organization_has_members db o = false := by
    rw [← Bool.not_eq_true]
    intro h
    obtain ⟨k, r, b, hr, hread⟩ := Txn.Store.select_nonempty_iff.mp h
    cases k with
    | member o' c =>
        simp only [Option.ite_none_right_eq_some] at hread
        obtain ⟨rfl, -⟩ := hread
        cases (hnone c).symm.trans hr
    | _ => cases hread
  simp [organization_members_insert, hempty, begin, set_context]

/-- **`create_organization`, alone**, for a new id and texts that can be stored. The founder can be
missing or departed, the slug malformed or taken; nothing after these checks fails. -/
theorem solo_create_organization {o : OrganizationId} {name slug : Text} (href : References db)
    (hnew : db.organization o = none) (hname : storable name = true) (hslug : storable slug = true) :
    (create_organization tx a name slug o).Solo Write.apply db₀ (fun _ _ => True)
      (fun e => e = .actorNotFound ∨ e = .actorDeparted ∨ e = .invalidSlug ∨ e = .slugTaken) db := by
  have hmember : ∀ b, db.member o b = none := by
    intro b
    by_contra h
    obtain ⟨r, hr⟩ := Option.ne_none_iff_exists'.mp h
    exact (href.member o b r hr).1 hnew
  have hinsert : organizations_insert (begin tx (.actor a)) = true := rfl
  unfold create_organization
  rw [Txn.Prog.solo_bind, solo_lift, solo_lock_actor]
  split
  · exact .inl rfl
  · exact .inr (.inl rfl)
  rename_i hseen
  have hactor : db.actor a ≠ none := by
    intro hnone
    simp [departed_seen, hnone] at hseen
  rw [Txn.Prog.solo_bind, Txn.Prog.solo_mapError, solo_insert (by simp) hnew]
  simp only [hname, hslug, hinsert, Bool.and_self, Bool.not_true, Bool.false_eq_true, if_false,
    admit_if]
  by_cases hformat : slug_format slug = true
  case neg => simp [hformat, SqlError.constraint]
  simp only [hformat, if_true]
  cases hfound : [slug_index slug].find? fun i => i.taken db with
  | some i =>
      cases List.mem_singleton.mp (List.mem_of_find?_eq_some hfound)
      simp [SqlError.constraint, slug_index]
  | none =>
      simp only
      rw [Txn.Prog.solo_bind, solo_lift, solo_insert]
      · rw [founder_admitted fun b => (put_get_of_ne (by simp)).trans (hmember b)]
        simp only [Bool.true_or, if_true, List.find?_nil]
        have horg : ((Write.put (.member o a) (some ⟨.owner, .active, none⟩)).apply
            ((Write.put (.organization o) (some ⟨name, slug⟩)).apply db)).organization o ≠ none := by
          simp [Database.organization, Txn.Store.get_put_of_ne]
        have hperson : ((Write.put (.member o a) (some ⟨.owner, .active, none⟩)).apply
            ((Write.put (.organization o) (some ⟨name, slug⟩)).apply db)).actor a ≠ none := by
          simpa [Database.actor, Txn.Store.get_put_of_ne] using hactor
        have hactive : ((Write.put (.member o a) (some ⟨.owner, .active, none⟩)).apply
            ((Write.put (.organization o) (some ⟨name, slug⟩)).apply db)).active o a = true :=
          put_active_self
        -- Neither record changes a row.
        rw [Txn.Prog.solo_bind, solo_write_member rfl horg hperson]
        refine ⟨fun _ => ?_, fun h => by cases hactive.symm.trans h⟩
        rw [Txn.Prog.solo_bind]
        refine (solo_write_member rfl ?_ ?_).mpr ⟨fun _ => trivial, fun h => ?_⟩
        · exact horg
        · exact hperson
        · cases hactive.symm.trans h
      · intro ref hmem
        simp only [List.mem_cons, List.not_mem_nil, or_false] at hmem
        obtain rfl | rfl := hmem
        · exact Reference.holds_of_some
            ((put_get_of_ne (by simp)).trans (Txn.Store.get_put_self _ _ _)) rfl
        · exact Reference.holds_of_put ((put_get_of_ne (by simp)).trans_ne hactor) (by rintro ⟨⟩)
      · exact (put_get_of_ne (by simp)).trans (hmember a)

end Fukulow
