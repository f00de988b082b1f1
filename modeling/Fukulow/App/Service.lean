/-
The HTTP server: the handlers as clients of the transaction system.

`service` puts the handlers of `routes` over the engine of all calls, beside whatever else
calls the crate `db`. `Lawful` says what has to be true of each call that a request makes, by
the calls it has had answered; `Proper` says what its answer has to do with them. Both are
shown of the program texts, for every reply of the database, and `Txn.Service.Reachable.kept`
carries them to every run.
-/
import Fukulow.App.Routes
import Fukulow.Authority
import Fukulow.Uniqueness
import Fukulow.Txn.Server

set_option autoImplicit false

namespace Fukulow

/-- The requests of one server, over the calls of the crate `db`. -/
def service (lib : Libraries) (origin : Text) (background : Call → Bool) :
    Txn.Service Database Write Resource Txn.LockMode Request Reply Call Arrival Stop HttpResponse where
  engine := engine anyCall
  name := Request.call
  serve := routes lib origin
  background r := background r.call = true

/-! ## What is asked of requests -/

/-- The calls that only look. -/
def Call.looks : Call → Bool
  | .resolve_session _ | .me _ | .invite_is_usable _ => true
  | _ => false

/-- The key of the session that the request comes with. -/
def Libraries.presented (lib : Libraries) (request : HttpRequest) : Option TokenHash :=
  (lib.cookie request.headers sessions.COOKIE_NAME).map (hash_session_token lib)

/-- What a request hears of a call. -/
abbrev Heard : Type := Txn.Heard Database Write Resource Txn.LockMode Request Reply

/-- What a call can end as. -/
def Known (e : Entry) : Prop := e.call.body.Yields [] e.outcome

/-- The call committed, with this reply. -/
def Replied (e : Heard) (reply : Reply) : Prop := ∃ ws, e.entry.outcome = .committed ws reply

/-- Nothing was written. -/
def Silent (past : List Heard) : Prop := ∀ e ∈ past, e.entry.outcome.writes = []

/-- Every call committed. -/
def Successful (past : List Heard) : Prop := ∀ e ∈ past, ∃ reply, Replied e reply

/-- What the calls before the last one have done: they looked, and were answered. -/
def Looked (past : List Heard) : Prop := Silent past ∧ Successful past

/-- The session that the request came with was resolved to `a`. -/
def Resolved (lib : Libraries) (request : HttpRequest) (past : List Heard) (a : ActorId) : Prop :=
  ∃ hash e, lib.presented request = some hash ∧ e ∈ past
    ∧ e.entry.call.call = .resolve_session hash ∧ Replied e (.resolve_session (.ok a))

/-- The request is one for this route. -/
structure HttpRequest.RoutedTo (request : HttpRequest) (method : Method) (path : Text) : Prop where
  serves : method.serves request.method = true
  fits : path_fits path request.path = true

/-- The request is for a route that needs a session. -/
def NeedsSession (lib : Libraries) (origin : Text) (i : Arrival) : Prop :=
  ∃ route ∈ ROUTES lib (.new lib origin i.ambient) i.ambient i.request,
    route.needs_session = true ∧ i.request.RoutedTo route.method route.path

/-- The calls that a request makes, each with its route and what it is made from: no other
operation is reached over HTTP. -/
inductive Asks (lib : Libraries) (origin : Text) (i : Arrival) (past : List Heard) : Call → Prop
  | sign_in {email password : Text}
      (hroute : i.request.RoutedTo .POST "/api/v1/sessions".toList)
      (hbody : sessions.credentials lib (lib.bytes i.request) = .ok (email, password)) :
      Asks lib origin i past (.sign_in email (verify_password lib.password_hash lib.verifier password)
        (new_session_token lib i.ambient.session_bytes).toOption
        (i.ambient.now + sessions.SESSION_LIFETIME) ⟨i.ambient.id⟩)
  | resolve_session {hash : TokenHash} (hroute : NeedsSession lib origin i)
      (hkey : lib.presented i.request = some hash) : Asks lib origin i past (.resolve_session hash)
  | revoke_session {a : ActorId} {hash : TokenHash}
      (hroute : i.request.RoutedTo .DELETE "/api/v1/sessions/current".toList)
      (hkey : lib.presented i.request = some hash) (hresolved : Resolved lib i.request past a) :
      Asks lib origin i past (.revoke_session a hash)
  | me {a : ActorId} (hroute : i.request.RoutedTo .GET "/api/v1/me".toList)
      (hresolved : Resolved lib i.request past a) : Asks lib origin i past (.me a)
  | create_invite {a : ActorId} {o : Uuid} {lifetime : Duration} {uses : ℤ}
      (hroute : i.request.RoutedTo .POST CREATE_PATH)
      (hresolved : Resolved lib i.request past a)
      (hbody : invites.terms lib (lib.bytes i.request) = .ok (lifetime, uses))
      (hpath : path_identifier lib.parse_str i.request.path 4 = .ok o) :
      Asks lib origin i past (.create_invite a ⟨o⟩ (new_invite_token lib i.ambient.invite_bytes).toOption
        (i.ambient.now + lifetime) uses ⟨i.ambient.id⟩)
  | revoke_invite {a : ActorId} {o : Uuid} (hroute : i.request.RoutedTo .DELETE REVOKE_PATH)
      (hresolved : Resolved lib i.request past a)
      (hpath : path_identifier lib.parse_str i.request.path 4 = .ok o) :
      Asks lib origin i past (.revoke_invite a ⟨o⟩
        ((path_identifier lib.parse_str i.request.path 6).toOption.map Identifier.mk))
  | invite_is_usable {fields : Fields} {token : Text}
      (hroute : i.request.RoutedTo .POST ACCEPT_PATH)
      (hbody : object lib.from_slice (lib.bytes i.request) = .ok fields)
      (htoken : string fields "token" = .ok token) :
      Asks lib origin i past (.invite_is_usable (hash_invite_token lib token))
  | accept_invite {fields : Fields} {token email password display_name password_hash : Text}
      (hroute : i.request.RoutedTo .POST ACCEPT_PATH)
      (hbody : object lib.from_slice (lib.bytes i.request) = .ok fields)
      (htoken : string fields "token" = .ok token)
      (hfields : acceptance_fields fields = .ok (email, password, display_name))
      (hhash : hash_password lib i.ambient.salt password = .ok password_hash) :
      Asks lib origin i past (.accept_invite (hash_invite_token lib token) email password_hash
        display_name ⟨i.ambient.id⟩)

/-- What is true of a call that a request makes, after the calls `past`. -/
structure Lawful (lib : Libraries) (origin : Text) (i : Arrival) (past : List Heard) (c : Call) :
    Prop where
  admitted : i.request.refused origin = false
  looked : Looked past
  changes : c.looks = true ∨ i.request.method.changes_state = true
  asks : Asks lib origin i past c

def StatusCode.is_error (status : StatusCode) : Bool :=
  status.is_client_error || status.is_server_error

/-- What a status has to do with the calls of its request. Only 500 may hide a change: that of
a last call under which the connection broke. -/
structure Told (past : List Heard) (status : StatusCode) : Prop where
  success : status.is_error = false → Successful past
  error : status.is_error = true → status ≠ .INTERNAL_SERVER_ERROR → Silent past

/-- The response to an error: its status, and the methods that the path has when the request's is
not one of them. -/
def Bare (lib : Libraries) (origin : Text) (i : Arrival) (response : HttpResponse) : Prop :=
  response = ⟨response.status, (i.allow lib origin).toList.map (Prod.mk "allow"), []⟩

/-- What an answer has to do with them. -/
def Proper (lib : Libraries) (origin : Text) (i : Arrival) (past : List Heard) :
    Except Stop HttpResponse → Prop
  | .ok response => Told past response.status
      ∧ (response.status.is_error = true → Bare lib origin i response)
  | .error _ => False

/-- What a handler's end has to do with them. -/
def Handled (past : List Heard) : Except Stop HttpResponse → Prop
  | .ok response => Told past response.status
  | .error (.status code) => code.is_error = true ∧ Told past code
  | .error .panicked => False

/-- A program of the server, judged. -/
abbrev Meets {α : Type} (P : List Heard → Call → Prop) (R : List Heard → Except Stop α → Prop)
    (p : Http α) (past : List Heard) : Prop :=
  p.Does (fun e : Heard => e.entry.call.call) Txn.Heard.reply (fun e => Known e.entry) P R past

/-! ## One call -/

section Call

variable {ε α : Type} {P : List Heard → Call → Prop} {R : List Heard → Except Stop α → Prop}
variable {c : Call} {result : Reply → Option (Except ε α)} {g : Except ε α → Reply}
variable {status : Option ε → StatusCode} {past : List Heard}

/-- The replies of a call, and how they are read. -/
structure Answers (c : Call) (result : Reply → Option (Except ε α)) (g : Except ε α → Reply) :
    Prop where
  reads : ∀ r, result (g r) = some r
  body : ∀ tx, ∃ p : Sql ε α, (Request.mk c tx).body = p.answer g

/-- **One call**: its reply was made from a result, or it changed nothing, or nothing was heard
of it. -/
theorem meets_db_call (h : Answers c result g) (hP : P past c)
    (hok : ∀ e a, Known e.entry → e.entry.call.call = c → Replied e (g (.ok a)) →
      R (past ++ [e]) (.ok a))
    (hfailed : ∀ e x, e.entry.call.call = c → e.entry.outcome.writes = [] →
      R (past ++ [e]) (.error (.status (status (some x)))))
    (hlost : ∀ e, e.entry.call.call = c → R (past ++ [e]) (.error (.status (status none)))) :
    Meets P R (db_call c result status) past := by
  refine ⟨hP, fun e hknown hname => ?_⟩
  change Meets P R (returned status (e.reply.bind result)) (past ++ [e])
  -- The connection may break although the call has ended: then the handler has no reply to read.
  obtain hnone | hreply := e.fits
  · rw [hnone]
    exact hlost e hname
  obtain ⟨p, hp⟩ := h.body e.entry.call.tx
  have hcall : e.entry.call = ⟨c, e.entry.call.tx⟩ := hname ▸ rfl
  have hyields : (p.answer g).Yields [] e.entry.outcome := by
    rw [← hp, ← hcall]
    exact hknown
  have hreplies := hyields.replies
  rw [hreply]
  cases hout : e.entry.outcome with
  | committed ws b =>
      rw [hout] at hreplies
      obtain ⟨a, rfl⟩ := hreplies
      rw [Txn.Outcome.reply, Option.bind_some, h.reads]
      exact hok e a hknown hname ⟨ws, hout⟩
  | failed b =>
      rw [hout] at hreplies
      obtain ⟨x, rfl⟩ := hreplies
      rw [Txn.Outcome.reply, Option.bind_some, h.reads]
      exact hfailed e x hname (by rw [hout]; rfl)
  | aborted => exact hlost e hname

end Call

/-! ## Handlers -/

section Handlers

variable {lib : Libraries} {origin : Text} {i : Arrival} {past : List Heard}

theorem Silent.concat {e : Heard} (h : Silent past) (he : e.entry.outcome.writes = []) :
    Silent (past ++ [e]) := by
  intro e' he'
  obtain he' | he' := List.mem_append.mp he'
  · exact h e' he'
  · exact List.mem_singleton.mp he' ▸ he

theorem Successful.concat {e : Heard} {reply : Reply} (h : Successful past) (he : Replied e reply) :
    Successful (past ++ [e]) := by
  intro e' he'
  obtain he' | he' := List.mem_append.mp he'
  · exact h e' he'
  · exact List.mem_singleton.mp he' ▸ ⟨reply, he⟩

theorem looked_nil : Looked [] :=
  ⟨fun _ h => absurd h List.not_mem_nil, fun _ h => absurd h List.not_mem_nil⟩

theorem Successful.told {code : StatusCode} (h : Successful past) (hcode : code.is_error = false) :
    Told past code :=
  ⟨fun _ => h, fun herror => absurd (hcode.symm.trans herror) Bool.false_ne_true⟩

theorem Silent.told {code : StatusCode} (h : Silent past) (hcode : code.is_error = true) :
    Told past code :=
  ⟨fun hsuccess => absurd (hsuccess.symm.trans hcode) Bool.false_ne_true, fun _ _ => h⟩

/-- Nothing is promised with 500. -/
theorem told_lost : Told past .INTERNAL_SERVER_ERROR :=
  ⟨fun h => absurd h (by decide), fun _ h => absurd rfl h⟩

variable {α ε : Type} {c : Call} {result : Reply → Option (Except ε α)} {g : Except ε α → Reply}
variable {status : Option ε → StatusCode}

/-- The statuses of a call's errors: a lost connection is 500. -/
structure Fails (status : Option ε → StatusCode) : Prop where
  error : ∀ x, (status x).is_error = true
  lost : status none = .INTERNAL_SERVER_ERROR

/-- A step that makes no call: it ends with the status of an error, or hands on what it has read.
-/
theorem meets_step {x : Except Stop α} {f : α → Http HttpResponse} (hpast : Looked past)
    (herror : ∀ stop, x = .error stop → ∃ s : StatusCode, stop = .status s ∧ s.is_error = true)
    (hf : ∀ a, x = .ok a → Meets (Lawful lib origin i) Handled (f a) past) :
    Meets (Lawful lib origin i) Handled (.ofExcept x >>= f) past := by
  refine Txn.Client.does_bind.mpr (Txn.Client.does_ofExcept.mpr ?_)
  cases hx : x with
  | ok a => exact hf a hx
  | error stop =>
      obtain ⟨s, rfl, hs⟩ := herror stop hx
      exact ⟨hs, hpast.1.told hs⟩

/-- A call, and what follows its result. An error of the call is a status of an error, and has
changed nothing; only a lost connection leaves it open what happened. -/
theorem meets_then {f : α → Http HttpResponse} (h : Answers c result g)
    (hlaw : Lawful lib origin i past c) (hstatus : Fails status)
    (hf : ∀ e a, Known e.entry → e.entry.call.call = c → Replied e (g (.ok a)) →
      Meets (Lawful lib origin i) Handled (f a) (past ++ [e])) :
    Meets (Lawful lib origin i) Handled (db_call c result status >>= f) past := by
  refine Txn.Client.does_bind.mpr (meets_db_call h hlaw hf (fun e x _ hwrites => ?_) fun e _ => ?_)
  · exact ⟨hstatus.error _, (hlaw.looked.1.concat hwrites).told (hstatus.error _)⟩
  · refine ⟨hstatus.error _, ?_⟩
    rw [hstatus.lost]
    exact told_lost

/-- A call that only looks, and what follows it: the calls so far still have changed nothing. -/
theorem meets_look {f : α → Http HttpResponse} (h : Answers c result g)
    (hlaw : Lawful lib origin i past c)
    (hlooks : ∀ tx, (Request.mk c tx).body.Emits fun _ => False) (hstatus : Fails status)
    (hf : ∀ e a, e.entry.call.call = c → Replied e (g (.ok a)) → Looked (past ++ [e]) →
      Meets (Lawful lib origin i) Handled (f a) (past ++ [e])) :
    Meets (Lawful lib origin i) Handled (db_call c result status >>= f) past := by
  refine meets_then h hlaw hstatus fun e a hknown hcall hreply => ?_
  have hsilent : e.entry.outcome.writes = [] := by
    refine Txn.Prog.Yields.no_writes hknown ?_
    subst hcall
    exact hlooks e.entry.call.tx
  exact hf e a hcall hreply ⟨hlaw.looked.1.concat hsilent, hlaw.looked.2.concat hreply⟩

/-- The last call, and the response to its result, which is the only success there is. -/
theorem meets_last {k : α → HttpResponse} (h : Answers c result g)
    (hlaw : Lawful lib origin i past c) (hstatus : Fails status)
    (hk : ∀ a, (k a).status.is_error = false) :
    Meets (Lawful lib origin i) Handled (db_call c result status >>= fun a => pure (k a)) past :=
  meets_then h hlaw hstatus fun _ a _ _ hreply => (hlaw.looked.2.concat hreply).told (hk a)

/-- The calls that look write nothing, at no step of their programs. -/
theorem looks_emits (h : c.looks = true) (tx : Transaction) :
    (Request.mk c tx).body.Emits fun _ => False := by
  cases c with
  | resolve_session hash =>
      refine Txn.Prog.emits_answer.mpr (Txn.Prog.emits_bind (emits_lift emits_select) fun found => ?_)
      cases found with
      | none => trivial
      | some a => trivial
  | me a =>
      refine Txn.Prog.emits_answer.mpr (Txn.Prog.emits_bind (emits_lift emits_select) fun found => ?_)
      cases found with
      | none => trivial
      | some me => trivial
  | invite_is_usable hash =>
      refine Txn.Prog.emits_answer.mpr ?_
      exact Txn.Prog.emits_bind (emits_lift emits_select) fun usable => trivial
  | _ => cases h

/-- The tables of statuses give each error of their operation a status of an error, and 500 where
nothing is known. -/
theorem fails_session : Fails sessions.session_error := by
  refine ⟨fun x => ?_, rfl⟩
  rcases x with _ | _ | _ <;> rfl

theorem fails_sign_in : Fails sessions.sign_in_error := by
  refine ⟨fun x => ?_, rfl⟩
  rcases x with _ | _ | _ | _ <;> rfl

theorem fails_create : Fails invites.create_error := by
  refine ⟨fun x => ?_, rfl⟩
  rcases x with _ | _ | _ | _ | _ <;> rfl

theorem fails_revoke : Fails invites.revoke_error := by
  refine ⟨fun x => ?_, rfl⟩
  rcases x with _ | _ | _ | _ | _ <;> rfl

theorem fails_usable : Fails invites.usable_error := ⟨fun _ => rfl, rfl⟩

theorem fails_accept : Fails invites.accept_error := by
  refine ⟨fun x => ?_, rfl⟩
  rcases x with _ | _ | _ | _ <;> rfl

/-- What a handler knows behind the extractor. -/
structure Behind (lib : Libraries) (request : HttpRequest) (who : sessions.Authenticated)
    (past : List Heard) : Prop where
  looked : Looked past
  presented : lib.presented request = some who.session
  resolved : Resolved lib request past who.actor

/-- The extractor, before a handler: without a cookie no call is made at all, and the handler runs
only behind a session that was resolved. -/
theorem meets_authenticated {handler : sessions.Authenticated → Http HttpResponse}
    (hadmitted : i.request.refused origin = false) (hroute : NeedsSession lib origin i)
    (hf : ∀ who past, Behind lib i.request who past →
      Meets (Lawful lib origin i) Handled (handler who) past) :
    Meets (Lawful lib origin i) Handled (authenticated lib i.request handler) [] := by
  rw [authenticated, sessions.from_request_parts, Txn.Client.bind_assoc]
  refine meets_step looked_nil ?_ fun token htoken => ?_
  · intro stop hstop
    exact ⟨.UNAUTHORIZED, (or_status_error.mp hstop).2, rfl⟩
  have hkey : lib.presented i.request = some (hash_session_token lib token) := by
    rw [Libraries.presented, or_status_ok.mp htoken]
    rfl
  rw [Txn.Client.bind_assoc]
  refine meets_look ⟨fun _ => rfl, fun _ => ⟨_, rfl⟩⟩
    ⟨hadmitted, looked_nil, .inl rfl, .resolve_session hroute hkey⟩ (looks_emits rfl) fails_session
    fun e a hcall hreply hlooked => ?_
  exact hf _ _ ⟨hlooked, hkey, _, e, hkey, List.mem_append_right _ List.mem_cons_self, hcall, hreply⟩

/-- A reader of the body answers 422, or another status of an error. -/
def Refuses {α : Type} (x : Except Stop α) : Prop :=
  ∀ stop, x = .error stop → ∃ s : StatusCode, stop = .status s ∧ s.is_error = true

/-- A value that is missing is a status. -/
theorem refuses_or_status {α : Type} {value : Option α} {s : StatusCode} (hs : s.is_error = true) :
    Refuses (or_status value s) :=
  fun _ hstop => ⟨s, (or_status_error.mp hstop).2, hs⟩

/-- Readers one after the other refuse as the first of them does that refuses. -/
theorem refuses_bind {α α' : Type} {x : Except Stop α} {f : α → Except Stop α'} (hx : Refuses x)
    (hf : ∀ a, Refuses (f a)) : Refuses (x >>= f) := by
  intro stop hstop
  cases hx' : x with
  | ok a =>
      rw [hx'] at hstop
      exact hf a stop hstop
  | error e =>
      rw [hx'] at hstop
      cases hstop
      exact hx _ hx'

/-- What is read already refuses nothing. -/
theorem refuses_pure {α : Type} {a : α} : Refuses (pure a : Except Stop α) := by
  rintro stop ⟨⟩

/-- The readers of bodies and of paths refuse with a status of an error, one by one. -/
theorem refuses_credentials {body : Option (List UInt8)} :
    Refuses (sessions.credentials lib body) :=
  refuses_bind (refuses_or_status rfl) fun _ => refuses_bind (refuses_or_status rfl) fun _ =>
    refuses_bind (refuses_or_status rfl) fun _ => refuses_bind (refuses_or_status rfl) fun _ =>
      refuses_bind (refuses_or_status rfl) fun _ => refuses_pure

theorem refuses_terms {body : Option (List UInt8)} : Refuses (invites.terms lib body) := by
  refine refuses_bind (fun stop h => ⟨_, object_error h, rfl⟩) fun fields => ?_
  refine refuses_bind (refuses_or_status rfl) fun expires_in => ?_
  refine refuses_bind ?_ fun _ => refuses_pure
  unfold invites.max_uses
  by_cases hkey : (fields.lookup "max_uses".toList).isSome = true
  · rw [if_pos hkey]
    exact refuses_bind (refuses_or_status rfl) fun _ => refuses_pure
  · rw [if_neg hkey]
    exact refuses_pure

theorem refuses_path {path : Text} {segment : ℕ} :
    Refuses (path_identifier lib.parse_str path segment) :=
  fun _ h => ⟨.NOT_FOUND, path_identifier_error h, rfl⟩

variable (hadmitted : i.request.refused origin = false)
include hadmitted

/-- `GET /api/v1/me` asks for the person of the session. -/
theorem meets_me {who : sessions.Authenticated} (h : Behind lib i.request who past)
    (hroute : i.request.RoutedTo .GET "/api/v1/me".toList) :
    Meets (Lawful lib origin i) Handled (sessions.me lib who) past :=
  meets_last ⟨fun _ => rfl, fun _ => ⟨_, rfl⟩⟩
    ⟨hadmitted, h.looked, .inl rfl, .me hroute h.resolved⟩ fails_session fun _ => rfl

variable (hchanges : i.request.method.changes_state = true)
include hchanges

/-- `POST /api/v1/sessions` signs in with what the body holds, and verifies the password of the
body. -/
theorem meets_sign_in (hroute : i.request.RoutedTo .POST "/api/v1/sessions".toList) :
    Meets (Lawful lib origin i) Handled
      (sessions.sign_in lib (.new lib origin i.ambient) ⟨i.ambient.id⟩ (lib.bytes i.request)) [] := by
  refine meets_step looked_nil refuses_credentials ?_
  rintro ⟨email, password⟩ hbody
  exact meets_last ⟨fun _ => rfl, fun _ => ⟨_, rfl⟩⟩
    ⟨hadmitted, looked_nil, .inr hchanges, .sign_in hroute hbody⟩ fails_sign_in fun _ => rfl

/-- `DELETE /api/v1/sessions/current` revokes the session that the request came with. -/
theorem meets_sign_out {who : sessions.Authenticated} (h : Behind lib i.request who past)
    (hroute : i.request.RoutedTo .DELETE "/api/v1/sessions/current".toList) :
    Meets (Lawful lib origin i) Handled (sessions.sign_out lib who) past :=
  meets_last ⟨fun _ => rfl, fun _ => ⟨_, rfl⟩⟩
    ⟨hadmitted, h.looked, .inr hchanges, .revoke_session hroute h.presented h.resolved⟩
    fails_session fun _ => rfl

/-- Creating an invite: body and path are read before the call, so what it is asked is what they
say. -/
theorem meets_create {who : sessions.Authenticated} (h : Behind lib i.request who past)
    (hroute : i.request.RoutedTo .POST CREATE_PATH) :
    Meets (Lawful lib origin i) Handled (invites.create lib (.new lib origin i.ambient) who
      i.request.path ⟨i.ambient.id⟩ (lib.bytes i.request)) past := by
  refine meets_step h.looked refuses_terms ?_
  rintro ⟨lifetime, uses⟩ hbody
  refine meets_step h.looked refuses_path fun organization hpath => ?_
  refine meets_step h.looked (refuses_or_status rfl) fun formatted _ => ?_
  exact meets_last ⟨fun _ => rfl, fun _ => ⟨_, rfl⟩⟩
    ⟨hadmitted, h.looked, .inr hchanges, .create_invite hroute h.resolved hbody hpath⟩
    fails_create fun _ => rfl

/-- Revoking an invite. An identifier that is none is no call of its own: the operation is told
that there is none. -/
theorem meets_revoke {who : sessions.Authenticated} (h : Behind lib i.request who past)
    (hroute : i.request.RoutedTo .DELETE REVOKE_PATH) :
    Meets (Lawful lib origin i) Handled (invites.revoke lib who i.request.path) past := by
  refine meets_step h.looked refuses_path fun organization hpath => ?_
  exact meets_last ⟨fun _ => rfl, fun _ => ⟨_, rfl⟩⟩
    ⟨hadmitted, h.looked, .inr hchanges, .revoke_invite hroute h.resolved hpath⟩ fails_revoke
    fun _ => rfl

/-- Accepting an invite takes two calls, of which the first only looks; both name the token of the
body, and the hash is that of the body's password. -/
theorem meets_accept (hroute : i.request.RoutedTo .POST ACCEPT_PATH) :
    Meets (Lawful lib origin i) Handled
      (invites.accept lib (.new lib origin i.ambient) ⟨i.ambient.id⟩ (lib.bytes i.request)) [] := by
  refine meets_step looked_nil (fun stop h => ⟨_, object_error h, rfl⟩) fun fields hbody => ?_
  refine meets_step looked_nil (fun stop h => ⟨_, string_error h, rfl⟩) fun token htoken => ?_
  refine meets_look ⟨fun _ => rfl, fun _ => ⟨_, rfl⟩⟩
    ⟨hadmitted, looked_nil, .inl rfl, .invite_is_usable hroute hbody htoken⟩ (looks_emits rfl)
    fails_usable ?_
  intro e usable _ _ hlooked
  cases usable with
  -- The fields are looked at only now, behind a token that can be used.
  | false => exact ⟨rfl, hlooked.1.told rfl⟩
  | true =>
      refine meets_step hlooked (fun stop h => ⟨_, acceptance_fields_error h, rfl⟩) ?_
      rintro ⟨email, password, display_name⟩ hfields
      refine meets_step hlooked (refuses_or_status rfl) fun password_hash hhash => ?_
      have hok : hash_password lib i.ambient.salt password = .ok password_hash :=
        toOption_eq_some.mp (or_status_ok.mp hhash)
      exact meets_last ⟨fun _ => rfl, fun _ => ⟨_, rfl⟩⟩
        ⟨hadmitted, hlooked, .inr hchanges, .accept_invite hroute hbody htoken hfields hok⟩
        fails_accept fun _ => rfl

end Handlers

/-! ## The router, and the layer around it -/

section Router

variable {lib : Libraries} {origin : Text} {i : Arrival} {past : List Heard}

/-- A route that changes state serves no other requests. -/
theorem serves_changes {m m' : Method} (h : m.serves m' = true) (hm : m.changes_state = true) :
    m'.changes_state = true := by
  rw [Method.serves, Bool.or_eq_true, Bool.and_eq_true, decide_eq_true_eq, decide_eq_true_eq] at h
  obtain rfl | ⟨rfl, -⟩ := h
  -- A GET route serves HEAD as well, and changes no state.
  · exact hm
  · cases hm

/-- **Every route**, one after the other as they stand in the table; what each handler knows at its
start is that the request is one for its route. -/
theorem meets_route {route : Route}
    (hroute : route ∈ ROUTES lib (.new lib origin i.ambient) i.ambient i.request)
    (hat : i.request.RoutedTo route.method route.path)
    (hadmitted : i.request.refused origin = false) :
    Meets (Lawful lib origin i) Handled route.handler [] := by
  have hneeds : route.needs_session = true → NeedsSession lib origin i :=
    fun hsession => ⟨route, hroute, hsession, hat⟩
  simp only [ROUTES, List.mem_cons, List.not_mem_nil, or_false] at hroute
  rcases hroute with rfl | rfl | rfl | rfl | rfl | rfl | rfl
  -- In the order of `ROUTES`; the first answers without any call.
  · exact looked_nil.2.told rfl
  · exact meets_sign_in hadmitted (serves_changes hat.serves rfl) hat
  · exact meets_authenticated hadmitted (hneeds rfl) fun who past h =>
      meets_sign_out hadmitted (serves_changes hat.serves rfl) h hat
  · exact meets_authenticated hadmitted (hneeds rfl) fun who past h => meets_me hadmitted h hat
  · exact meets_authenticated hadmitted (hneeds rfl) fun who past h =>
      meets_create hadmitted (serves_changes hat.serves rfl) h hat
  · exact meets_authenticated hadmitted (hneeds rfl) fun who past h =>
      meets_revoke hadmitted (serves_changes hat.serves rfl) h hat
  · exact meets_accept hadmitted (serves_changes hat.serves rfl) hat

/-- A response, with its body or without. -/
def Responded (past : List Heard) : Except Stop HttpResponse → Prop
  | .ok response => Told past response.status
  | .error _ => False

/-- An end of a handler is a response: an error becomes the one for its status. -/
theorem responded_of_handled {r : Except Stop HttpResponse} (h : Handled past r) :
    Responded past (Txn.Client.handled Stop.into_response r) := by
  rcases r with (code | _) | response
  · exact h.2
  · exact h
  · exact h

/-- The router runs the handler of the first route that fits path and method, and answers 404 or
405 without any call. -/
theorem meets_router (hadmitted : i.request.refused origin = false) :
    Meets (Lawful lib origin i) Responded
      (router lib (.new lib origin i.ambient) i.ambient i.request) [] := by
  unfold router
  dsimp only
  split
  · rename_i route hfind
    obtain ⟨hroute, hfits⟩ := List.mem_filter.mp (List.mem_of_find?_eq_some hfind)
    have hserves : route.method.serves i.request.method = true := by
      simpa using List.find?_some hfind
    refine Txn.Client.does_handle.mpr ?_
    exact (meets_route hroute ⟨hserves, hfits⟩ hadmitted).mono (fun _ _ h => h)
      fun _ _ => responded_of_handled
  · split
    -- A path that fits with another method is 405, any other 404.
    · exact looked_nil.1.told rfl
    · exact looked_nil.1.told rfl

/-- Emptying a response leaves its status. -/
theorem emptied_status (response : HttpResponse) :
    response.emptied.status = response.status := by
  unfold HttpResponse.emptied
  split <;> rfl

/-- A response that leaves `protect`: an error is bare by then. -/
def Protected (past : List Heard) : Except Stop HttpResponse → Prop
  | .ok response => Told past response.status
      ∧ (response.status.is_error = true → response = response.status.into_response)
  | .error _ => False

/-- The layer lets no refused request through to the router, and makes every error bare. -/
theorem meets_protect (i : Arrival) : Meets (Lawful lib origin i) Protected
    (protect_layer origin (router lib (.new lib origin i.ambient) i.ambient) i.request) [] := by
  unfold protect_layer
  cases hrefused : i.request.refused origin with
  | true =>
      simp only [if_true]
      exact ⟨looked_nil.1.told rfl, fun _ => rfl⟩
  | false =>
      simp only [Bool.false_eq_true, if_false]
      refine Txn.Client.does_bind.mpr ((meets_router hrefused).mono (fun _ _ h => h) ?_)
      rintro past (stop | response) hr
      · exact hr
      · refine ⟨(emptied_status response).symm ▸ hr, fun herror => ?_⟩
        rw [emptied_status] at herror ⊢
        exact if_pos herror

/-- The header leaves the status. -/
theorem set_allow_header_status (allow : Option (List UInt8)) (response : HttpResponse) :
    (set_allow_header allow response).status = response.status := by
  unfold set_allow_header
  split
  · split <;> rfl
  · rfl

/-- So does leaving out the body. -/
theorem strip_body_status (method : Method) (response : HttpResponse) :
    (strip_body method response).status = response.status := by
  unfold strip_body
  split <;> rfl

/-- What `axum` adds to a bare response: the methods of the path, if the request's is not one of
them. -/
theorem finished_into_response (method : Method) (allow : Option (List UInt8))
    (status : StatusCode) : strip_body method (set_allow_header allow status.into_response)
      = ⟨status, allow.toList.map (Prod.mk "allow"), []⟩ := by
  cases allow <;> cases method <;> rfl

/-- **Every request**, judged by its program. What follows `protect` leaves the status, so what a
status tells of the calls is told by the response that is sent. -/
theorem meets_routes (i : Arrival) :
    Meets (Lawful lib origin i) (Proper lib origin i) (routes lib origin i) [] := by
  refine Txn.Client.does_bind.mpr ((meets_protect i).mono (fun _ _ h => h) ?_)
  rintro past (stop | response) hr
  · exact hr
  obtain ⟨htold, hbare⟩ := hr
  have hstatus : (strip_body i.request.method
      (set_allow_header (i.allow lib origin) response)).status = response.status := by
    rw [strip_body_status, set_allow_header_status]
  refine ⟨hstatus ▸ htold, fun herror => ?_⟩
  rw [hstatus] at herror
  rw [Bare, hstatus, hbare herror]
  exact finished_into_response _ _ _

end Router

end Fukulow
