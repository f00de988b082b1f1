/-
`operations/invites.rs` meets its guarantees.

Creating and revoking hold the organization only `FOR SHARE`; their authority rests on
the performer's own membership row, which `authorize` locks. Accepting rests on the
invite row: the conditional update locks it, so what its `WHERE` saw of the newest
version is still so at the commit.
-/
import Fukulow.Guaranteed.Identity

set_option autoImplicit false

namespace Fukulow

open Txn (LockMode)

variable {allowed : Call → Bool} {guarded : Bool} {V : World → Prop}
variable {L : Held} {w : World} {tx : Transaction} {p a : ActorId} {o : OrganizationId}

/-- `authorize`: an allowed performer's membership is locked, active, and holds the capability. The
row is read by a locking read, so the three are of its newest version. -/
theorem wp_authorize {Q : Held → List Write → Access → World → Prop}
    {F : Held → SqlError → World → Prop} {s : Settings} {capability : Capability}
    (hQ : ∀ L' w' access, L ⊆ L' → (rules allowed guarded V).Later L w w' → V w' →
      (access = .allowed → L'.row (.member o p) .share ∧ w'.store.authorized o p capability) →
      Q L' [] access w') :
    (rules allowed guarded V).wp Q F (authorize s p o capability) L [] w := by
  unfold authorize
  rw [Txn.Rules.wp_bind]
  refine wp_select_locking ?_ ?_
  · intro L₁ w₁ hL₁ hl₁ hv₁
    exact hQ L₁ w₁ _ hL₁ hl₁ hv₁ (by rintro ⟨⟩)
  · intro L₁ w₁ r hL₁ hl₁ hv₁ hrow hr hstatus
    refine hQ L₁ w₁ _ hL₁ hl₁ hv₁ ?_
    intro hallowed
    refine ⟨hrow, r, hr, by simpa using hstatus, ?_⟩
    by_contra hholds
    simp [hholds] at hallowed

/-- A share lock on the membership keeps the authority: role and status are columns of the locked
row, and nobody else changes them. -/
theorem frozen_authorized {capability : Capability} {w' : World} (hrow : L.row (.member o p) .share)
    (h : (rules allowed guarded V).Later L w w') (hauth : w.store.authorized o p capability) :
    w'.store.authorized o p capability := by
  obtain ⟨r, hr, hboth⟩ := hauth
  exact ⟨r, (frozen_row (k := .member o p) hrow (by decide) h).trans hr, hboth⟩

/-- Whoever has a capability is an active member. -/
theorem Database.authorized.active {db : Database} {capability : Capability}
    (h : db.authorized o p capability) : db.active o p = true := by
  obtain ⟨r, hr, hstatus, -⟩ := h
  exact Database.active_iff.mpr ⟨r, hr, hstatus⟩

/-- **`create_invite`.** The authority is read before the token is drawn and the invite inserted,
and the lock on the performer's membership carries it to the commit. That the invite can be used at
all is what the insert's own check has tested. -/
theorem wp_create_invite {T : Type} {c : Call} {new_token : Unit → Option (T × TokenHash)}
    {expires_at : Instant} {max_uses : ℤ} {i : InviteId} :
    (rules allowed guarded V).wp
      (Ends allowed guarded V c fun _ ws db => ∃ t hash, new_token () = some (t, hash)
        ∧ InviteCreated ws db tx p o hash expires_at max_uses i) anyError
      (create_invite tx p o new_token expires_at max_uses i) L [] w := by
  unfold create_invite
  refine wp_opening ?_
  intro L₁ w₁ _ hv₁ horg _
  rw [Txn.Rules.wp_bind, wp_lift]
  refine wp_authorize ?_
  intro L₂ w₂ access hL₂ _ _ haccess
  split
  case h_1 => trivial
  case h_2 => trivial
  case h_3 =>
    obtain ⟨hshare, hauth⟩ := haccess rfl
    split
    case h_1 => trivial
    case h_2 token hash htoken =>
      rw [Txn.Rules.wp_bind, wp_lift]
      refine wp_insert_from (fun _ _ _ => trivial) (by simp) ?_ ?_ ?_
      · intro _ _ _ _
        trivial
      · intro _ _ _ _ _
        trivial
      · intro w₃ L₄ w₄ hl₃ hv₃ hL₄ hl₄ hv₄ hadmits hins
        -- The last of the tests of the insert.
        have hmax : 0 < max_uses := by
          by_contra hle
          simp [hle, admit_if] at hadmits
          split at hadmits
          · cases hadmits
          · split at hadmits <;> cases hadmits
        dsimp only
        rw [Txn.Rules.wp_bind, wp_lift]
        refine wp_event_write (fun _ _ _ => trivial) ?_
        intro w₅ L₆ w₆ hl₅ hv₅ _ hL₆ hl₆ hv₆ _ _
        have hL₂₆ : L₂ ⊆ L₆ := List.Subset.trans hL₄ hL₆
        have hlater₄ : ∀ v, (rules allowed guarded V).Later L₆ w₆ v →
            (rules allowed guarded V).Later L₄ w₄ v :=
          fun v hl => hl₅.trans (hl₆.trans (hl.mono hL₆))
        have hlater₂ : ∀ v, (rules allowed guarded V).Later L₆ w₆ v →
            (rules allowed guarded V).Later L₂ w₂ v :=
          fun v hl => hl₃.trans (hl₄.trans ((hlater₄ v hl).mono hL₄))
        have hauth_later : ∀ v, (rules allowed guarded V).Later L₆ w₆ v →
            v.store.authorized o p .inviteMember :=
          fun v hl => frozen_authorized hshare (hlater₂ v hl) hauth
        refine Ends.change (fun v hl _ => (hauth_later v hl).active) ?_ ?_
        · intro v hl _
          refine .insert (hL₆ hins.row) (hins.new_later (List.Subset.refl _) (hlater₄ v hl)) ?_ ?_
          · rintro _ ⟨⟩
            exact ⟨_, hL₂₆ (hL₂ horg)⟩
          · rintro _ ⟨⟩
            exact ⟨_, hL₆ (hins.references ⟨.actor p, fun _ => true⟩ (by simp)).1⟩
        · intro v hl _ hchange
          exact ⟨token, hash, htoken, hins.new_later (List.Subset.refl _) (hlater₄ v hl), hmax,
            hauth_later v hl, hchange⟩

/-- **`revoke_invite`.** The invite is locked before it is looked at, so that it was open holds at
the commit. One that is not open any more is left alone. -/
theorem wp_revoke_invite {c : Call} {invite : Option InviteId} :
    (rules allowed guarded V).wp
      (Ends allowed guarded V c fun _ ws db => InviteRevoked ws db tx p o invite) anyError
      (revoke_invite tx p o invite) L [] w := by
  unfold revoke_invite
  refine wp_opening ?_
  intro L₁ w₁ _ hv₁ horg _
  rw [Txn.Rules.wp_bind, wp_lift]
  refine wp_authorize ?_
  intro L₂ w₂ access hL₂ _ _ haccess
  split
  case h_1 => trivial
  case h_2 => trivial
  case h_3 =>
    obtain ⟨hshare, hauth⟩ := haccess rfl
    split
    case h_1 => trivial
    case h_2 i =>
      rw [Txn.Rules.wp_bind, wp_lift]
      refine wp_select_locking (fun _ _ _ _ _ => trivial) ?_
      intro L₃ w₃ r hL₃ hl₃ hv₃ hrow hr hro
      have hro : r.organization_id = o := by simpa using hro
      dsimp only
      split
      case isFalse => exact Ends.nothing fun _ _ _ => .inl rfl
      case isTrue hopen =>
        have hkeep : ∀ {L' : Held} {v}, L₃ ⊆ L' → (rules allowed guarded V).Later L' w₃ v →
            v.store.invite i = some r :=
          fun hL hl => (frozen_row (k := .invite i) (hL hrow) (by decide) hl).trans hr
        rw [Txn.Rules.wp_bind, wp_lift]
        refine wp_update (fun _ _ _ => trivial) (by simp) ?_ ?_
        · -- The performer is a member, so the statement sees the invite and does not miss it.
          intro w₄ L₅ w₅ hl₄ hv₄ hL₅ hl₅ hv₅ hmiss
          have hp : w₄.store.active o p = true :=
            (frozen_authorized hshare (hl₃.trans (hl₄.mono hL₃)) hauth).active
          have hvis : invites_select (begin tx (.actor p)) w₄.store r
              && invites_update (begin tx (.actor p)) w₄.store r = true := by
            simp [invites_select, invites_update, begin, set_context,
              fukulow_active_organizations, hro, hp]
          have := hmiss r (hkeep (List.Subset.refl _) hl₄) (by simpa [hro] using hvis) r
            (hkeep (List.Subset.refl _) (hl₄.trans hl₅))
          simp [hro] at this
        · intro w₄ L₅ w₅ old new hl₄ hv₄ hL₅ hl₅ hv₅ _ hold _ hset
          cases hold.symm.trans (hkeep (List.Subset.refl _) (hl₄.trans hl₅))
          split at hset
          case isFalse => cases hset
          case isTrue =>
            cases hset
            rw [wp_lift]
            refine wp_event_write (fun _ _ _ => trivial) ?_
            intro w₆ L₇ w₇ hl₆ hv₆ _ hL₇ hl₇ hv₇ _ _
            have hlater : ∀ v, (rules allowed guarded V).Later L₇ w₇ v →
                (rules allowed guarded V).Later L₃ w₃ v := fun v hl =>
              hl₄.trans (hl₅.trans (Txn.Rules.Later.mono hL₅ (hl₆.trans (hl₇.trans (hl.mono hL₇)))))
            have hauth_later : ∀ v, (rules allowed guarded V).Later L₇ w₇ v →
                v.store.authorized o p .inviteMember := fun v hl =>
              frozen_authorized hshare (hl₃.trans ((hlater v hl).mono hL₃)) hauth
            have hL₃₇ : L₃ ⊆ L₇ := List.Subset.trans hL₅ hL₇
            refine Ends.change (fun v hl _ => (hauth_later v hl).active) ?_ ?_
            · intro v hl _
              refine .update (x := r) (m := .update) rfl (by decide) (hL₃₇ hrow)
                (hkeep (List.Subset.refl _) (hlater v hl)) ?_ ⟨rfl, rfl⟩ (by rintro _ _ ⟨⟩)
              intro o' ho'
              cases ho'
              exact ⟨_, hro ▸ hL₃₇ (hL₃ (hL₂ horg))⟩
            · intro v hl _ hchange
              exact .inr ⟨i, r, rfl, hkeep (List.Subset.refl _) (hlater v hl), hro, hopen,
                hauth_later v hl, hchange⟩

/-- **`invite_is_usable`** is one read, and writes nothing. -/
theorem wp_invite_is_usable {c : Call} {hash : TokenHash} :
    (rules allowed guarded V).wp (Ends allowed guarded V c fun _ ws _ => ws = []) anyError
      (invite_is_usable tx hash) L [] w := by
  dsimp only [invite_is_usable]
  rw [wp_lift, wp_select]
  exact fun _ _ _ => Ends.nothing fun _ _ _ => rfl

/-- The row that a use of an invite leaves. -/
def InviteRow.used (r : InviteRow) (xid : ℕ) : InviteRow :=
  { r with used_count := r.used_count + 1, xmin := xid }

/-- The conditional use: the invite it found is locked, and was open where it ends. Its `WHERE` is
asked again of the newest version, which a use or a revocation may have made in between, and the
lock then keeps that version. -/
theorem wp_use_invite {Q : Held → List Write → Option (InviteId × InviteRow) → World → Prop}
    {F : Held → SqlError → World → Prop} {s : Settings} {hash : TokenHash}
    (hF : ∀ L e w, F L e w) (hnone : ∀ L' w', Q L' [] none w')
    (hsome : ∀ L' w' i r, L ⊆ L' → V w' → L'.row (.invite i) .noKeyUpdate →
      w'.store.invite i = some r → r.token_hash = hash → r.used_count < r.max_uses →
      r.revoked_at = none → s.now < r.expires_at →
      Q L' [.put (.invite i) (some (r.used s.xid))] (some (i, r.used s.xid)) w') :
    (rules allowed guarded V).wp Q F (use_invite s hash) L [] w := by
  rw [use_invite, Txn.Rules.wp_bind, wp_snapshot]
  intro w₁ hl₁ hv₁
  rw [view_nil]
  split
  case h_1 => exact hnone L w₁
  case h_2 i _ =>
    rw [Txn.Rules.wp_bind]
    refine wp_update_row hF hv₁ (by simp) (fun L₂ w₂ _ _ _ _ => hnone L₂ w₂) ?_
    intro L₂ w₂ old new hL₂ hl₂ hv₂ hrow hold hmatch hset
    dsimp only at hset
    split at hset
    case isFalse => cases hset
    case isTrue =>
      cases hset
      simp only [Bool.and_eq_true, decide_eq_true_eq] at hmatch
      obtain ⟨⟨⟨htoken, huses⟩, hrevoked⟩, hexpires⟩ := hmatch
      exact hsome L₂ w₂ i old hL₂ hv₂ hrow hold htoken huses hrevoked hexpires

/-- **`accept_invite`.** The use of the invite comes first and keeps it locked, so that it was open
is still so when the person has been inserted. All other rows of the call are new, and are kept so
by the locks of their inserts. -/
theorem wp_accept_invite {c : Call} {hash : TokenHash}
    {email password_hash display_name : Text} :
    (rules allowed guarded V).wp
      (Ends allowed guarded V c fun reply ws db => InviteAccepted ws db tx hash email password_hash
        display_name a (.accept_invite (.ok reply))) anyError
      (accept_invite tx hash email password_hash display_name a) L [] w := by
  unfold accept_invite
  rw [Txn.Rules.wp_bind, wp_lift]
  refine wp_use_invite (fun _ _ _ => trivial) (fun _ _ => trivial) ?_
  intro L₁ w₁ i r hL₁ hv₁ hinvite hr htoken huses hrevoked hexpires
  dsimp only
  split
  case isTrue => trivial
  case isFalse hkind =>
    -- The kind is asked for only after the use, and a team's invite is given back by the error.
    have htarget : r.target = .organization := by
      cases htarget : r.target with
      | organization => rfl
      | team t => simp [InviteRow.used, htarget, InviteTarget.kind, accepts_new_person] at hkind
    rw [Txn.Rules.wp_bind, Txn.Rules.wp_mapError]
    refine wp_create_person (by simp) (by simp) ?_
    intro L₂ w₂ hL₂ hl₂ hv₂ hactor huser hnoactor hnouser
    rw [Txn.Rules.wp_bind, wp_lift]
    refine wp_insert (fun _ _ _ => trivial) (by simp) ?_
    intro w₃ L₄ w₄ hl₃ hv₃ hL₄ hl₄ hv₄ _ hmember
    rw [Txn.Rules.wp_bind, wp_lift]
    refine wp_event_write (fun _ _ _ => trivial) ?_
    intro w₅ L₆ w₆ hl₅ hv₅ _ hL₆ hl₆ hv₆ horg _ v hl _
    have hL₂₆ : L₂ ⊆ L₆ := List.Subset.trans hL₄ hL₆
    have hlater₄ : (rules allowed guarded V).Later L₄ w₄ v := hl₅.trans (hl₆.trans (hl.mono hL₆))
    have hlater₂ : (rules allowed guarded V).Later L₂ w₂ v :=
      hl₃.trans (hl₄.trans (hlater₄.mono hL₄))
    have hrv : v.store.invite i = some r :=
      (frozen_row (k := .invite i) hinvite (by decide) (hl₂.trans (hlater₂.mono hL₂))).trans hr
    have hactor_new : v.store.actor a = none :=
      (frozen_row (k := .actor a) hactor (by decide) hlater₂).trans hnoactor
    have huser_new : v.store.user a = none :=
      (frozen_row (k := .user a) huser (by decide) hlater₂).trans hnouser
    have hmember_new : v.store.member r.organization_id a = none :=
      hmember.new_later (List.Subset.refl _) hlater₄
    have htenant : ∀ o', some r.organization_id = some o' → L₆.any (.organization o') := by
      rintro _ ⟨⟩
      exact ⟨_, horg⟩
    have hperson : ∀ b, some a = some b → L₆.any (.actor b) := by
      rintro _ ⟨⟩
      exact ⟨_, hL₂₆ hactor⟩
    refine ⟨.cons_put ?_ (.cons_put ?_ (.cons_put ?_ (.cons_put ?_ (.cons_log (.nil c L₆ v.store))))),
      i, r, hrv, ⟨htoken, htarget, huses, hrevoked, hexpires⟩, hactor_new, huser_new,
      hmember_new, rfl, rfl⟩
    · exact .update (m := .noKeyUpdate) rfl (by decide) (hL₂₆ (hL₂ hinvite)) hrv htenant ⟨rfl, rfl⟩
        (by rintro _ _ ⟨⟩)
    · exact .insert (hL₂₆ hactor) hactor_new (by rintro _ ⟨⟩) hperson
    · exact .insert (hL₂₆ huser) huser_new (by rintro _ ⟨⟩) hperson
    · exact .insert (hL₆ hmember.row) hmember_new htenant hperson

end Fukulow
