/-
An acceptance over HTTP, with nobody else around.

`accept` decides in an order that its comment gives a reason for: the invite comes before the
fields, and both before the password is hashed, so that only those who hold a usable token make
the server work. `AcceptanceEnds` is that order with the response of each end, and with what it
leaves in the database; between its two calls time goes on, so an invite may expire there.
-/
import Fukulow.Acceptance
import Fukulow.App.Stored
import Fukulow.Permanence
import Fukulow.Uniqueness

set_option autoImplicit false

namespace Fukulow

/-! ## Calls at once -/

/-- What a call answers, with a result or with an error. -/
def spoken : Except Reply Reply → Reply
  | .ok reply => reply
  | .error reply => reply

/-- The database with nobody else around. Each call is a transaction of its own, at the time that
`clock` shows for it. -/
def at_once (clock : ℕ → Instant) (c : Call) : Database × ℕ → Option Reply × (Database × ℕ)
  | (db, n) =>
      let r := (Request.mk c ⟨clock n, n⟩).alone db
      (some (spoken r.1), (r.2, n + 1))

section Alone

variable {clock : ℕ → Instant} {db db' : Database} {n : ℕ} {ε α : Type} {c : Call}
variable {result : Reply → Option (Except ε α)} {g : Except ε α → Reply}
variable {status : Option ε → StatusCode}

/-- Alone, a call that ends with a result gives that result, and the state it leaves. -/
theorem db_call_alone_ok {a : α} (hread : ∀ r, result (g r) = some r)
    (h : (Request.mk c ⟨clock n, n⟩).alone db = (.ok (g (.ok a)), db')) :
    (db_call c result status).alone (at_once clock) (db, n) = (.ok a, (db', n + 1)) := by
  rw [db_call, Txn.Client.alone, at_once, h]
  simp only [spoken, Option.bind_some, hread]
  rfl

/-- One that ends with an error gives the status of that error. -/
theorem db_call_alone_error {e : ε} (hread : ∀ r, result (g r) = some r)
    (h : (Request.mk c ⟨clock n, n⟩).alone db = (.error (g (.error e)), db')) :
    (db_call c result status).alone (at_once clock) (db, n)
      = (.error (.status (status (some e))), (db', n + 1)) := by
  rw [db_call, Txn.Client.alone, at_once, h]
  simp only [spoken, Option.bind_some, hread]
  rfl

end Alone

/-! ## The order of the decisions -/

section Acceptance

variable (lib : Libraries) (origin : Text) (clock : ℕ → Instant) (i : Arrival)

/-- The body is an object with a token in it. -/
structure Knocks (fields : Fields) (token : Text) : Prop where
  admitted : i.request.refused origin = false
  body : object lib.from_slice (lib.bytes i.request) = .ok fields
  token : string fields "token" = .ok token

/-- How an acceptance ends, in the order in which that is decided. -/
inductive AcceptanceEnds (db : Database) (n : ℕ) : StatusCode → Database → Prop
  | refused (h : i.request.refused origin = true) : AcceptanceEnds db n .FORBIDDEN db
  | malformed (hadmitted : i.request.refused origin = false)
      (h : ∀ fields token, ¬ Knocks lib origin i fields token) :
      AcceptanceEnds db n .UNPROCESSABLE_ENTITY db
  | unknown {fields : Fields} {token : Text} (hknocks : Knocks lib origin i fields token)
      (h : ¬ db.invited (hash_invite_token lib token) (clock n)) : AcceptanceEnds db n .NOT_FOUND db
  | unacceptable {fields : Fields} {token : Text} (hknocks : Knocks lib origin i fields token)
      (hinvited : db.invited (hash_invite_token lib token) (clock n))
      (h : ∀ entered, acceptance_fields fields ≠ .ok entered) :
      AcceptanceEnds db n .UNPROCESSABLE_ENTITY db
  | not_hashed {fields : Fields} {token email password display_name : Text}
      (hknocks : Knocks lib origin i fields token)
      (hinvited : db.invited (hash_invite_token lib token) (clock n))
      (hfields : acceptance_fields fields = .ok (email, password, display_name))
      (h : (hash_password lib i.ambient.salt password).toOption = none) :
      AcceptanceEnds db n .INTERNAL_SERVER_ERROR db
  | expired {fields : Fields} {token email password display_name password_hash : Text}
      (hknocks : Knocks lib origin i fields token)
      (hinvited : db.invited (hash_invite_token lib token) (clock n))
      (hfields : acceptance_fields fields = .ok (email, password, display_name))
      (hhash : (hash_password lib i.ambient.salt password).toOption = some password_hash)
      (h : ¬ db.invited (hash_invite_token lib token) (clock (n + 1))) :
      AcceptanceEnds db n .NOT_FOUND db
  | taken {fields : Fields} {token email password display_name password_hash : Text}
      (hknocks : Knocks lib origin i fields token)
      (hinvited : db.invited (hash_invite_token lib token) (clock n))
      (hfields : acceptance_fields fields = .ok (email, password, display_name))
      (hhash : (hash_password lib i.ambient.salt password).toOption = some password_hash)
      (hstill : db.invited (hash_invite_token lib token) (clock (n + 1)))
      (h : db.emailUsed email) : AcceptanceEnds db n .CONFLICT db
  | joined {fields : Fields} {token email password display_name password_hash : Text}
      {j : InviteId} {r : InviteRow} (hknocks : Knocks lib origin i fields token)
      (hinvited : db.invited (hash_invite_token lib token) (clock n))
      (hfields : acceptance_fields fields = .ok (email, password, display_name))
      (hhash : (hash_password lib i.ambient.salt password).toOption = some password_hash)
      (hfree : ¬ db.emailUsed email) (hr : db.invite j = some r)
      (hopen : r.open (hash_invite_token lib token) (clock (n + 1))) :
      AcceptanceEnds db n .NO_CONTENT
        (view
          (acceptance ⟨clock (n + 1), n + 1⟩ j r ⟨i.ambient.id⟩ email password_hash display_name) db)

end Acceptance

section Routed

variable {lib : Libraries} {origin : Text} {i : Arrival} {db : Database}

/-- The end of a handler: a status, and what it stands for. -/
def Ended (status : StatusCode) (r : Except Stop HttpResponse) : Prop :=
  Txn.Client.handled Stop.into_response r = .ok status.into_response

/-- **`accept`, with nobody else around.** The handler is followed step by step; the two calls it
makes are decided as `invite_is_usable_alone` and `accept_invite_exact` say, the second on the
state that the first has left as it was. -/
theorem accept_alone (clock : ℕ → Instant) (n : ℕ) (hdb : Enforced db)
    (hnew : db.actor ⟨i.ambient.id⟩ = none)
    (hhashes : ∀ salt password hash, hash_password lib salt password = .ok hash →
      storable hash = true) (hadmitted : i.request.refused origin = false) :
    ∃ r db' m status, (invites.accept lib (.new lib origin i.ambient) ⟨i.ambient.id⟩
        (lib.bytes i.request)).alone (at_once clock) (db, n) = (r, (db', m))
      ∧ Ended status r ∧ AcceptanceEnds lib origin clock i db n status db' := by
  rw [invites.accept, Txn.Client.alone_bind, Txn.Client.alone_ofExcept]
  cases hbody : object lib.from_slice (lib.bytes i.request) with
  | error stop =>
      -- No object.
      cases object_error hbody
      refine ⟨_, _, _, _, rfl, rfl, .malformed hadmitted ?_⟩
      rintro fields token ⟨-, hfields, -⟩
      cases hfields.symm.trans hbody
  | ok fields =>
  rw [Txn.Client.continued, Txn.Client.alone_bind, Txn.Client.alone_ofExcept]
  cases htoken : string fields "token" with
  | error stop =>
      -- No token.
      cases string_error htoken
      refine ⟨_, _, _, _, rfl, rfl, .malformed hadmitted ?_⟩
      rintro fields' token ⟨-, hfields, hstring⟩
      cases hfields.symm.trans hbody
      cases hstring.symm.trans htoken
  | ok token =>
  have hknocks : Knocks lib origin i fields token := ⟨hadmitted, hbody, htoken⟩
  rw [Txn.Client.continued, Txn.Client.alone_bind]
  obtain ⟨usable, heq, husable⟩ :=
    invite_is_usable_alone (hash_invite_token lib token) ⟨clock n, n⟩ db
  rw [db_call_alone_ok (fun _ => rfl) heq, Txn.Client.continued]
  cases usable with
  | false =>
      refine ⟨_, _, _, _, rfl, rfl, .unknown hknocks fun hinvited => ?_⟩
      cases husable.mpr hinvited
  | true =>
  -- Only here are the other fields looked at.
  have hinvited := husable.mp rfl
  simp only [Bool.not_true, Bool.false_eq_true, if_false]
  rw [Txn.Client.alone_bind, Txn.Client.alone_ofExcept]
  cases hfields : acceptance_fields fields with
  | error stop =>
      cases acceptance_fields_error hfields
      refine ⟨_, _, _, _, rfl, rfl, .unacceptable hknocks hinvited ?_⟩
      intro entered hentered
      cases hentered.symm.trans hfields
  | ok entered =>
  obtain ⟨email, password, display_name⟩ := entered
  rw [Txn.Client.continued, Txn.Client.alone_bind, Txn.Client.alone_ofExcept]
  cases hhash : (hash_password lib i.ambient.salt password).toOption with
  | none =>
      have hfailed : or_status ((StateData.new lib origin i.ambient).hash_invite_password
          password).toOption .INTERNAL_SERVER_ERROR = .error (.status .INTERNAL_SERVER_ERROR) :=
        or_status_error.mpr ⟨hhash, rfl⟩
      rw [hfailed]
      exact ⟨_, _, _, _, rfl, rfl, .not_hashed hknocks hinvited hfields hhash⟩
  | some password_hash =>
  have hhashed : or_status ((StateData.new lib origin i.ambient).hash_invite_password
      password).toOption .INTERNAL_SERVER_ERROR = .ok password_hash := or_status_ok.mpr hhash
  rw [hhashed, Txn.Client.continued, Txn.Client.alone_bind]
  have hpasses := (acceptance_fields_ok.mp hfields).2.2.2
  have hstorable : storable password_hash = true :=
    hhashes _ _ _ (toOption_eq_some.mp hhash)
  -- The id is drawn for the request, so nothing is stored about it.
  have huser : db.user ⟨i.ambient.id⟩ = none := by
    by_contra h
    exact hdb.user _ h hnew
  have hmember : ∀ o, db.member o ⟨i.ambient.id⟩ = none := by
    intro o
    by_contra h
    exact hdb.member o _ h hnew
  obtain ⟨reply, t, heq, hfree, j, r, hr, hopen, rfl, rfl⟩ | ⟨e, heq, herror⟩ := alone_of_solo
    (q := ⟨.accept_invite (hash_invite_token lib token) email password_hash display_name
      ⟨i.ambient.id⟩, ⟨clock (n + 1), n + 1⟩⟩) rfl
    (solo_accept_invite hdb.toInviteConstraints hnew huser hmember hpasses.email_storable hstorable
      hpasses.name_storable)
  · rw [db_call_alone_ok (fun _ => rfl) heq]
    exact ⟨_, _, _, _, rfl, rfl, .joined hknocks hinvited hfields hhash hfree hr hopen⟩
  · rw [db_call_alone_error (fun _ => rfl) heq]
    obtain ⟨rfl, hno⟩ | ⟨rfl, hstill, hused⟩ := herror
    · exact ⟨_, _, _, _, rfl, rfl, .expired hknocks hinvited hfields hhash hno⟩
    · exact ⟨_, _, _, _, rfl, rfl, .taken hknocks hinvited hfields hhash hstill hused⟩

/-! ## The route -/

/-- Segments without parameters fit only themselves, by induction on the two lists. -/
theorem same_segments {patterns segments : List Text}
    (hplain : ∀ p ∈ patterns, p.head? ≠ some '\x7b') (h : segments_fit patterns segments = true) :
    segments = patterns := by
  induction patterns generalizing segments with
  | nil =>
      cases segments with
      | nil => rfl
      | cons a rest => cases h
  | cons p ps ih =>
      cases segments with
      | nil => cases h
      | cons a rest =>
          rw [segments_fit, Bool.and_eq_true] at h
          obtain ⟨hfirst, hrest⟩ := h
          rw [segment_fits, if_neg (hplain p List.mem_cons_self), decide_eq_true_eq] at hfirst
          change p = a at hfirst
          rw [ih (fun q hq => hplain q (List.mem_cons_of_mem _ hq)) hrest, hfirst]

/-- A path that fits the route is split as the route is. -/
theorem split_of_fits {path : Text} (h : path_fits ACCEPT_PATH path = true) :
    path.splitOn '/' = ACCEPT_PATH.splitOn '/' := by
  refine same_segments ?_ h
  decide +kernel

/-- The route of `accept`. -/
def accept_route (lib : Libraries) (origin : Text) (i : Arrival) : Route :=
  ⟨.POST, ACCEPT_PATH, false, false,
    invites.accept lib (.new lib origin i.ambient) ⟨i.ambient.id⟩ (lib.bytes i.request)⟩

/-- No other route takes its requests. -/
theorem accept_method_router (hroute : i.request.RoutedTo .POST ACCEPT_PATH) :
    method_router lib (.new lib origin i.ambient) i.ambient i.request
      = [accept_route lib origin i] := by
  have hsplit := split_of_fits hroute.fits
  have hfits : ∀ pattern, path_fits pattern i.request.path = path_fits pattern ACCEPT_PATH := by
    intro pattern
    rw [path_fits, path_fits, hsplit]
  have hhealth : path_fits "/health".toList ACCEPT_PATH = false := by decide +kernel
  have hsessions : path_fits "/api/v1/sessions".toList ACCEPT_PATH = false := by decide +kernel
  have hcurrent : path_fits "/api/v1/sessions/current".toList ACCEPT_PATH = false := by
    decide +kernel
  have hme : path_fits "/api/v1/me".toList ACCEPT_PATH = false := by decide +kernel
  have hcreate : path_fits CREATE_PATH ACCEPT_PATH = false := by decide +kernel
  have hrevoke : path_fits REVOKE_PATH ACCEPT_PATH = false := by decide +kernel
  have haccept : path_fits ACCEPT_PATH ACCEPT_PATH = true := by decide +kernel
  simp only [method_router, ROUTES, hfits, List.filter, hhealth, hsessions, hcurrent, hme, hcreate,
    hrevoke, haccept]
  rfl

/-- So the router runs the handler of `accept`. -/
theorem router_accepts (hroute : i.request.RoutedTo .POST ACCEPT_PATH) :
    router lib (.new lib origin i.ambient) i.ambient i.request
      = (accept_route lib origin i).handler.handle Stop.into_response := by
  have hfind : [accept_route lib origin i].find? (fun route =>
      route.method.serves i.request.method) = some _ := List.find?_cons_of_pos hroute.serves
  simp only [router, accept_method_router hroute, hfind]

/-- Its method has a handler, so there is no `Allow`. -/
theorem accept_allow (hroute : i.request.RoutedTo .POST ACCEPT_PATH) : i.allow lib origin = none := by
  have hserves : (accept_route lib origin i).method.serves i.request.method = true := hroute.serves
  rw [Arrival.allow, accept_method_router hroute, allow_header, List.any_cons, hserves]
  rfl

/-- A bare status has no body to lose. -/
theorem emptied_into_response (status : StatusCode) :
    status.into_response.emptied = status.into_response := by
  unfold HttpResponse.emptied
  split <;> rfl

/-- Every committed state is as acceptance needs it: the index, the foreign keys and the counters
hold in every run. -/
theorem reachable_enforced {s : System} (h : (engine anyCall).Reachable World.empty s) :
    Enforced s.world.store := by
  have hrefs := reachable_references h
  have huses : ∀ j r, s.world.store.invite j = some r → 0 ≤ r.used_count := by
    refine Txn.Rules.Later.preserves (P := fun v : World => ∀ j r, v.store.invite j = some r →
      0 ≤ r.used_count) ?_ (reachable_later h) (by rintro j r ⟨⟩)
    intro q L out w hw hg _ _ j r hr
    cases out with
    | failed | aborted => exact hw j r hr
    | committed ws reply =>
        obtain ⟨y, hy, -, hle⟩ | ⟨hzero, -⟩ := hg.2.1.invite_after hr
        · exact (hw j y hy).trans hle
        · exact hzero.ge
  refine ⟨⟨(reachable_unique h).distinct.invite_token, huses, fun j r hr => hrefs.invite j r hr⟩,
    (reachable_peopled h).actor, ?_⟩
  intro o a ha
  obtain ⟨r, hr⟩ := Option.ne_none_iff_exists'.mp ha
  exact (hrefs.member o a r hr).2

/-- **An acceptance is decided in order.** With nobody else around, in any state that a run has
led to, a request to accept an invite is answered with a bare status: the first of the
decisions that applies gives it, and only the last of them, where somebody joins, changes
anything. -/
theorem acceptances_are_decided_in_order (origin : Text) (clock : ℕ → Instant) (n : ℕ)
    (hroute : i.request.RoutedTo .POST ACCEPT_PATH) {s : System}
    (h : (engine anyCall).Reachable World.empty s)
    (hnew : s.world.store.actor ⟨i.ambient.id⟩ = none)
    (hhashes : ∀ salt password hash, hash_password lib salt password = .ok hash →
      storable hash = true) :
    ∃ status db m, (routes lib origin i).alone (at_once clock) (s.world.store, n)
        = (.ok status.into_response, (db, m))
      ∧ AcceptanceEnds lib origin clock i s.world.store n status db := by
  rw [routes, Txn.Client.alone_bind, protect_layer, accept_allow hroute]
  cases hrefused : i.request.refused origin with
  | true =>
      refine ⟨_, _, n, ?_, .refused hrefused⟩
      exact congrArg (fun response => (Except.ok response, (s.world.store, n)))
        (finished_into_response i.request.method none _)
  | false =>
      simp only [Bool.false_eq_true, if_false]
      obtain ⟨r, db, m, status, halone, hended, haccepts⟩ :=
        accept_alone clock n (reachable_enforced h) hnew hhashes hrefused
      refine ⟨status, db, m, ?_, haccepts⟩
      rw [Txn.Client.alone_bind, router_accepts hroute, accept_route, Txn.Client.alone_handle, halone,
        hended]
      -- The response is bare from here on, and neither the layer nor `axum` adds anything.
      change (Except.ok (strip_body i.request.method
        (set_allow_header none status.into_response.emptied)), (db, m)) = _
      rw [emptied_into_response, finished_into_response]
      rfl

/-- The hasher of the recorded day writes PHC strings, without U+0000. -/
theorem recorded_hashes {salt : Option (Vector UInt8 16)} {password hash : Text}
    (h : hash_password day.recorded salt password = .ok hash) : storable hash = true := by
  obtain ⟨drawn, -, h⟩ := bind_ok.mp h
  by_cases hgrace : Utf8.encode password = Utf8.encode "battery staple".toList
      ∧ drawn = Vector.replicate 16 0x44
  · simp only [day.recorded, if_pos hgrace] at h
    cases h
    decide +kernel
  · simp only [day.recorded, if_neg hgrace] at h
    cases h

/-- An organization of Ada's, with the invite that Grace is given. -/
def invited : List Request :=
  [⟨.create_person "ada@example.org".toList day.ada_phc "Ada".toList day.ada, ⟨day.nine, 1⟩⟩,
    ⟨.create_organization day.ada "Guild".toList "guild".toList day.guild, ⟨day.nine, 2⟩⟩,
    ⟨.create_invite day.ada day.guild
      (some (day.invite_token, hash_invite_token day.recorded day.invite_token))
      (day.nine + 3600) 2 day.invite, ⟨day.nine, 3⟩⟩]

/-- Grace's request, with the body in which she accepts it. -/
def joins : Arrival := day.posted ACCEPT_PATH [] day.acceptance 6

/-- Grace accepts the invite that she was given, and nothing comes before that decision. -/
theorem acceptances_are_decided_in_order_recorded : ∃ s : System,
    (engine anyCall).Reachable World.empty s
      ∧ ∃ db m, (routes day.recorded day.origin joins).alone (at_once fun _ => day.nine)
            (s.world.store, 4) = (.ok StatusCode.NO_CONTENT.into_response, (db, m))
        ∧ AcceptanceEnds day.recorded day.origin (fun _ => day.nine) joins s.world.store 4
          .NO_CONTENT db := by
  obtain ⟨s, hs, hcheck⟩ := reachable_of_serve 100 invited
    (fun s => (s.world.store.actor day.grace).isNone
      && ((routes day.recorded day.origin joins).alone (at_once fun _ => day.nine)
        (s.world.store, 4)).1.toOption.map (fun response => response.status.code) = some 204)
    (by decide +kernel)
  rw [Bool.and_eq_true, Option.isNone_iff_eq_none, decide_eq_true_eq] at hcheck
  obtain ⟨hnew, hcode⟩ := hcheck
  have hroute : joins.request.RoutedTo .POST ACCEPT_PATH := ⟨by decide, by decide +kernel⟩
  obtain ⟨status, db, m, halone, haccepts⟩ :=
    acceptances_are_decided_in_order day.origin (fun _ => day.nine) 4 hroute hs hnew
      fun _ _ _ h => recorded_hashes h
  rw [halone] at hcode
  obtain ⟨code⟩ := status
  have h204 : code = 204 := Option.some.inj hcode
  subst h204
  exact ⟨s, hs, db, m, halone, haccepts⟩

end Routed

end Fukulow
