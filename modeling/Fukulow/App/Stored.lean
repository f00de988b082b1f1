/-
What a run of the server has stored, and the requests it comes from.

Each row of a session, an invite or a user leads back to one call on record, and that call to the
background or to one request. What the request was checked for is then known of the row: not
just that some password fits a stored hash, but that it is the one in the body of that request.
-/
import Fukulow.App.Runs

set_option autoImplicit false

namespace Fukulow

section Stored

variable {lib : Libraries} {origin : Text} {background : Call → Bool} {s : Server}

/-! ## Sessions -/

/-- What a sign-in reads from its body can be compared with what is stored. -/
theorem credentials_storable {body : Option (List UInt8)} {email password : Text}
    (h : sessions.credentials lib body = .ok (email, password)) : storable email = true := by
  rw [sessions.credentials] at h
  obtain ⟨_, -, h⟩ := bind_ok.mp h
  obtain ⟨_, -, h⟩ := bind_ok.mp h
  obtain ⟨_, -, h⟩ := bind_ok.mp h
  obtain ⟨email', hemail, h⟩ := bind_ok.mp h
  obtain ⟨_, -, h⟩ := bind_ok.mp h
  cases h
  exact (Option.filter_eq_some_iff.mp (or_status_ok.mp hemail)).2

/-! ## Invites and users -/

/-- What an invite may be asked to be: the bounds of lifetime and uses are those of the body's
reader. -/
theorem terms_bounded {body : Option (List UInt8)} {lifetime : Duration} {uses : ℤ}
    (h : invites.terms lib body = .ok (lifetime, uses)) :
    Duration.seconds 300 ≤ lifetime ∧ lifetime ≤ Duration.seconds 604800 ∧ 1 ≤ uses ∧ uses ≤ 100 := by
  rw [invites.terms] at h
  obtain ⟨fields, -, h⟩ := bind_ok.mp h
  obtain ⟨n, hn, h⟩ := bind_ok.mp h
  obtain ⟨m, hm, h⟩ := bind_ok.mp h
  cases h
  obtain ⟨-, hmin, hmax⟩ := integer_ok.mp hn
  refine ⟨hmin, hmax, ?_⟩
  unfold invites.max_uses at hm
  by_cases hkey : (fields.lookup "max_uses".toList).isSome = true
  · rw [if_pos hkey] at hm
    obtain ⟨value, hvalue, hm⟩ := bind_ok.mp hm
    cases hm
    obtain ⟨-, hone, hhundred⟩ := integer_ok.mp hvalue
    -- The cast to `i32` loses nothing within the bounds.
    have hsame : invites.as_i32 value = value := by
      unfold invites.as_i32
      exact Int.bmod_eq_of_le (by omega) (by omega)
    rw [hsame]
    exact ⟨hone, hhundred⟩
  · rw [if_neg hkey] at hm
    cases hm
    exact ⟨le_refl 1, by omega⟩

/-- The row is as a request asked that signed in: an email and a password, which a verifier
accepts for the stored hash of the user, and a token of the request's own. -/
def SignedInBy (lib : Libraries) (i : Arrival) (pre : List Entry) (e : Entry) (j : SessionId)
    (r : SessionRow) : Prop :=
  i.request.RoutedTo .POST "/api/v1/sessions".toList ∧ j = ⟨i.ambient.id⟩
    ∧ (∃ token, new_session_token lib i.ambient.session_bytes = .ok (token, r.token_hash))
    ∧ r.expires_at = i.ambient.now + sessions.SESSION_LIFETIME
    ∧ ∃ email password, sessions.credentials lib (lib.bytes i.request) = .ok (email, password)
      ∧ ∃ db ∈ (Txn.World.mk e.before pre).states, ∃ u, db.user r.actor_id = some u
        ∧ lower u.email = lower email
        ∧ verify_password lib.password_hash lib.verifier password u.password_hash = true

/-- **Every session comes from a sign-in.** A stored session, revoked or not, was opened by a call
on record, of the background or of a request of the origin that signed in: the verifier has
accepted the password in its body for the user who holds the session, its token is the one
drawn for that request, and it expires 14 days after. -/
theorem sessions_come_from_sign_ins (h : Serves lib origin background s) :
    ∀ j r, s.system.world.store.session j = some r →
      ∃ pre e post, s.system.world.history = pre ++ e :: post ∧ OpenedBy j e r
        ∧ (background e.call.call = true ∨ ∃ i n q,
          (service lib origin background).Owned s pre e i n q
            ∧ i.request.get_all "origin" = [Utf8.encode origin] ∧ SignedInBy lib i pre e j r) := by
  intro j r hr
  obtain ⟨pre, e, post, hs, hopened⟩ := session_opened_by (Txn.Service.Reachable.system h) hr
  refine ⟨pre, e, post, hs, hopened, (serves_owned h hs).imp_right ?_⟩
  rintro ⟨i, n, q, howned, hlawful⟩
  obtain ⟨email, verify, t, ws, hcall, hout⟩ := hopened
  -- The verifier is the request's own: it closes over the password of the body.
  have haccepted := signed_in_accepted (Txn.Service.Reachable.system h) hs hout
  -- A sign-in does not only look, so its request passed the origin's test.
  have hchanges : i.request.method.changes_state = true := by
    refine hlawful.changes.resolve_left ?_
    rw [hcall]
    exact Bool.false_ne_true
  refine ⟨i, n, q, howned, origin_of_admitted hlawful.admitted hchanges, ?_⟩
  have hasks := hlawful.asks
  rw [hcall] at hasks
  generalize hsome : some (t, r.token_hash) = token at hasks
  generalize hat : r.expires_at = expires at hasks
  cases hasks with
  | @sign_in email password hroute hbody =>
      refine ⟨hroute, rfl, ⟨t, toOption_eq_some.mp hsome.symm⟩, hat, email, password, hbody, ?_⟩
      exact haccepted email _ _ _ _ hcall (credentials_storable hbody)

theorem sessions_come_from_sign_ins_in_a_day :
    ∃ s, Serves day.recorded day.origin day.administers s
      ∧ ∃ r, s.system.world.store.session day.session = some r ∧ r.actor_id = day.ada
        ∧ ∃ pre e post i, s.system.world.history = pre ++ e :: post
          ∧ i.request.get_all "origin" = [Utf8.encode day.origin]
          ∧ SignedInBy day.recorded i pre e day.session r := by
  obtain ⟨s, hs⟩ := a_day_served
  obtain ⟨r, hr, hholder⟩ := Option.map_eq_some_iff.mp hs.session
  refine ⟨s, hs.serves, r, hr, hholder, ?_⟩
  obtain ⟨pre, e, post, hsplit, hopened, hback | ⟨i, n, q, -, horigin, hsigned⟩⟩ :=
    sessions_come_from_sign_ins hs.serves day.session r hr
  · obtain ⟨email, verify, t, ws, hcall, -⟩ := hopened
    rw [hcall] at hback
    cases hback
  · exact ⟨pre, e, post, i, hsplit, horigin, hsigned⟩

/-- The invite is one that a request asked for: its path names the organization, its body the
lifetime and the number of uses, both within bounds, and its session is the creator's. -/
def InvitedBy (lib : Libraries) (i : Arrival) (q : List Heard) (j : InviteId) (r : InviteRow) :
    Prop :=
  i.request.RoutedTo .POST CREATE_PATH ∧ j = ⟨i.ambient.id⟩
    ∧ Resolved lib i.request q r.created_by_actor_id
    ∧ (∃ token, new_invite_token lib i.ambient.invite_bytes = .ok (token, r.token_hash))
    ∧ path_identifier lib.parse_str i.request.path 4 = .ok r.organization_id.uuid
    ∧ (∃ lifetime, invites.terms lib (lib.bytes i.request) = .ok (lifetime, r.max_uses)
      ∧ r.expires_at = i.ambient.now + lifetime)
    ∧ 1 ≤ r.max_uses ∧ r.max_uses ≤ 100
    ∧ i.ambient.now + Duration.seconds 300 ≤ r.expires_at
    ∧ r.expires_at ≤ i.ambient.now + Duration.seconds 604800

/-- The person is one who accepted an invite: the body of the request has the email, the name and
a password, which pass the checks, and that password is the one that was hashed, with the salt
drawn for the request. -/
def AcceptedBy (lib : Libraries) (i : Arrival) (email password_hash display_name : Text)
    (a : ActorId) : Prop :=
  i.request.RoutedTo .POST ACCEPT_PATH ∧ a = ⟨i.ambient.id⟩
    ∧ ∃ fields password, object lib.from_slice (lib.bytes i.request) = .ok fields
      ∧ acceptance_fields fields = .ok (email, password, display_name)
      ∧ Acceptable email password display_name
      ∧ hash_password lib i.ambient.salt password = .ok password_hash

/-- The request behind a call that makes a person: only `accept` makes such a call, and hashes the
password of the same body. -/
theorem accepted_by {i : Arrival} {q : List Heard} {c : Call} {email password_hash name : Text}
    {a : ActorId} (h : Lawful lib origin i q c) (hc : c.enrolls email password_hash name a) :
    AcceptedBy lib i email password_hash name a := by
  have hasks := h.asks
  -- No route creates a person without an invite.
  obtain rfl | ⟨token, rfl⟩ := hc
  · cases hasks
  · cases hasks with
    | accept_invite hroute hbody _ hfields hhash =>
        exact ⟨hroute, rfl, _, _, hbody, hfields, (acceptance_fields_ok.mp hfields).2.2.2, hhash⟩

/-- The request behind a call that makes an invite: only `create` makes it, behind a session that
it resolved. -/
theorem invited_by {i : Arrival} {q : List Heard} {c : Call} {j : InviteId} {r : InviteRow}
    {t : Text} (h : Lawful lib origin i q c)
    (hc : c = .create_invite r.created_by_actor_id r.organization_id (some (t, r.token_hash))
      r.expires_at r.max_uses j) : InvitedBy lib i q j r := by
  have hasks := h.asks
  rw [hc] at hasks
  -- The call's arguments are the row's columns; the route gives them as it made them.
  generalize hsome : some (t, r.token_hash) = token at hasks
  generalize hat : r.expires_at = expires at hasks
  generalize huses : r.max_uses = uses at hasks
  generalize hwhere : r.organization_id = o at hasks
  generalize hwho : r.created_by_actor_id = a at hasks
  cases hasks with
  | @create_invite _ _ lifetime _ hroute hresolved hbody hpath =>
      obtain ⟨hmin, hmax, hone, hhundred⟩ := terms_bounded hbody
      refine ⟨hroute, rfl, hwho ▸ hresolved, ⟨t, toOption_eq_some.mp hsome.symm⟩, ?_,
        ⟨lifetime, huses ▸ hbody, hat⟩, huses ▸ hone, huses ▸ hhundred, ?_, ?_⟩
      · rw [hwhere]
        exact hpath
      · rw [hat]
        exact Int.add_le_add_left hmin _
      · rw [hat]
        exact Int.add_le_add_left hmax _

/-- **What requests store was checked.** An invite, a user or a name that is stored comes from a
call on record, of the background or of a request: an invite was asked for with 1 to 100
uses and 5 minutes to 7 days to live, by the holder of a session, with the token drawn for
the request; a person has the email and the name of the request's body, which pass the checks,
and the stored hash is the one made of the password in that body with the salt drawn for the
request. -/
theorem what_requests_store_was_checked (h : Serves lib origin background s) :
    (∀ j r, s.system.world.store.invite j = some r →
      ∃ pre e post, s.system.world.history = pre ++ e :: post ∧ CreatedBy j e r
        ∧ (background e.call.call = true ∨ ∃ i n q,
          (service lib origin background).Owned s pre e i n q ∧ InvitedBy lib i q j r))
    ∧ (∀ a r, s.system.world.store.user a = some r →
      ∃ pre e post, s.system.world.history = pre ++ e :: post ∧ EnrolledBy a e r
        ∧ (background e.call.call = true ∨ ∃ i n q name,
          (service lib origin background).Owned s pre e i n q
            ∧ AcceptedBy lib i r.email r.password_hash name a))
    ∧ ∀ a r name, s.system.world.store.actor a = some r → r.display_name = some name →
      ∃ pre e post, s.system.world.history = pre ++ e :: post ∧ NamedBy a e r
        ∧ (background e.call.call = true ∨ ∃ i n q email password_hash,
          (service lib origin background).Owned s pre e i n q
            ∧ AcceptedBy lib i email password_hash name a) := by
  have hrun := Txn.Service.Reachable.system h
  refine ⟨?_, ?_, ?_⟩
  -- In all three: the call that made the row is on record, and a request's call is lawful.
  · intro j r hr
    obtain ⟨pre, e, post, hs, hcreated⟩ := invite_created_by hrun hr
    refine ⟨pre, e, post, hs, hcreated, (serves_owned h hs).imp_right ?_⟩
    rintro ⟨i, n, q, howned, hlawful⟩
    obtain ⟨⟨t, hcall⟩, -⟩ := hcreated
    exact ⟨i, n, q, howned, invited_by hlawful hcall⟩
  · intro a r hr
    obtain ⟨pre, e, post, hs, henrolled⟩ := user_enrolled_by hrun hr
    refine ⟨pre, e, post, hs, henrolled, (serves_owned h hs).imp_right ?_⟩
    rintro ⟨i, n, q, howned, hlawful⟩
    obtain ⟨⟨name, hcall⟩, -⟩ := henrolled
    exact ⟨i, n, q, name, howned, accepted_by hlawful hcall⟩
  · intro a r name hr hname
    obtain ⟨pre, e, post, hs, hnamed⟩ := actor_named_by hrun hr
    refine ⟨pre, e, post, hs, hnamed, (serves_owned h hs).imp_right ?_⟩
    rintro ⟨i, n, q, howned, hlawful⟩
    obtain ⟨⟨email, password_hash, hcall⟩, -⟩ := hnamed name hname
    exact ⟨i, n, q, email, password_hash, howned, accepted_by hlawful hcall⟩

/-- On that day a request makes the invite and another one Grace, as no administrator does. -/
theorem what_requests_store_was_checked_in_a_day :
    ∃ s, Serves day.recorded day.origin day.administers s
      ∧ (∃ r i q, s.system.world.store.invite day.invite = some r
        ∧ InvitedBy day.recorded i q day.invite r)
      ∧ (∃ i name, AcceptedBy day.recorded i "grace@example.org".toList day.grace_phc name day.grace)
      ∧ ∃ i email password_hash,
        AcceptedBy day.recorded i email password_hash "Grace".toList day.grace := by
  obtain ⟨s, hs⟩ := a_day_served
  obtain ⟨hinvites, husers, hnames⟩ := what_requests_store_was_checked hs.serves
  obtain ⟨r, hr, -⟩ := Option.map_eq_some_iff.mp hs.invite
  obtain ⟨row, hrow, hname⟩ := Option.bind_eq_some_iff.mp hs.actor
  -- Of persons the administrator makes Ada only.
  have hother : ∀ {c : Call} {email hash name : Text}, c.enrolls email hash name day.grace →
      day.administers c = false := by
    rintro c email hash name (rfl | ⟨token, rfl⟩)
    · exact decide_eq_false (by decide : day.grace ≠ day.ada)
    · rfl
  refine ⟨s, hs.serves, ?_, ?_, ?_⟩
  · obtain ⟨pre, e, post, -, ⟨⟨t, hcall⟩, -⟩, hback | ⟨i, n, q, -, hinvited⟩⟩ := hinvites _ r hr
    · rw [hcall] at hback
      cases hback
    · exact ⟨r, i, q, hr, hinvited⟩
  · obtain ⟨pre, e, post, -, ⟨⟨name, henrolls⟩, -⟩, hback | ⟨i, n, q, name', -, haccepted⟩⟩ :=
      husers _ _ hs.user
    · cases hback.symm.trans (hother henrolls)
    · exact ⟨i, name', haccepted⟩
  · obtain ⟨pre, e, post, -, hnamed, hback | ⟨i, n, q, email, hash, -, haccepted⟩⟩ :=
      hnames _ row _ hrow hname
    · obtain ⟨⟨email, hash, henrolls⟩, -⟩ := hnamed _ hname
      cases hback.symm.trans (hother henrolls)
    · exact ⟨i, email, hash, haccepted⟩

end Stored

end Fukulow
