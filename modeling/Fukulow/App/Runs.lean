/-
The HTTP server, in all its runs.

Requests are served at once, next to whatever else calls the crate `db`, and a connection may
break under any call. What each handler does on its own (`meets_routes`) then holds of every
request in every run, and with it go facts about the whole: a request changes all it should or
nothing, it acts for nobody but the holder of a session that is live while it is served, only
pages of the origin make it change anything, and what is stored was checked.
-/
import Fukulow.App.Service
import Fukulow.Provenance
import Fukulow.Txn.Schedules

set_option autoImplicit false

namespace Fukulow

/-- A server over the database. -/
abbrev Server : Type :=
  Txn.Server Database Write Resource Txn.LockMode Request Reply Call Arrival Stop HttpResponse

instance (lib : Libraries) (origin : Text) (background : Call → Bool) :
    DecidablePred (service lib origin background).background :=
  fun r => inferInstanceAs (Decidable (background r.call = true))

/-- What any interleaving of requests and background calls leads to, from an empty database. -/
abbrev Serves (lib : Libraries) (origin : Text) (background : Call → Bool) (s : Server) : Prop :=
  (service lib origin background).Reachable World.empty s

/-! ## A day

Ada is made known and founds an organization. Over HTTP she signs in, asks who she is, and makes
an invite; Grace accepts it; and somebody tries a method that a path does not have. What the
libraries return on that day is in `recorded`, for what they are handed on it. -/

/-- A character of a JSON string, as `serde_json` writes it. -/
def escape (c : Char) : Text :=
  if c = '\x22' || c = '\x5c' then ['\x5c', c]
  else if c = '\x08' then ['\x5c', 'b']
  else if c = '\t' then ['\x5c', 't']
  else if c = '\n' then ['\x5c', 'n']
  else if c = '\x0c' then ['\x5c', 'f']
  else if c = '\r' then ['\x5c', 'r']
  else if c.toNat < 32 then ['\x5c', 'u', '0', '0'] ++ Hex.fixed 2 c.toNat
  else [c]

def quoted (s : Text) : Text := '\x22' :: s.flatMap escape ++ ['\x22']

def Number.text : Number → Text
  | pos_int n => Nat.toDigits 10 n.toNat
  | neg_int n => '-' :: Nat.toDigits 10 n.toInt.natAbs
  | float _ => []

mutual

/-- What `serde_json` writes for a value without floats: nothing between the tokens, and the
fields of an object in the order of their keys, in which `Map` keeps them. -/
def Value.text : Value → Text
  | null => "null".toList
  | bool b => (if b then "true" else "false").toList
  | number n => n.text
  | string s => quoted s
  | array xs => '[' :: [','].intercalate (Value.texts xs) ++ [']']
  | object fields => '\x7b' :: [','].intercalate
      (((Value.members fields).insertionSort fun m n => decide (m.1 ≤ n.1)).map
        fun m => quoted m.1 ++ ':' :: m.2) ++ ['\x7d']

def Value.texts : List Value → List Text
  | [] => []
  | value :: values => value.text :: Value.texts values

def Value.members : List (Text × Value) → List (Text × Text)
  | [] => []
  | (key, value) :: fields => (key, value.text) :: Value.members fields

end

namespace day

def origin : Text := "https://chat.example.org".toList

/-- 9:00 on 5 January 2026, UTC. -/
def nine : Instant := 1767603600

/-- Uuids of version 7, drawn at nine. -/
def drawn (n : ℕ) : Uuid := 0x019b8d627a8070008000000000000000 + n

def ada : ActorId := ⟨drawn 1⟩
def guild : OrganizationId := ⟨drawn 2⟩
def session : SessionId := ⟨drawn 3⟩
def invite : InviteId := ⟨drawn 5⟩
def grace : ActorId := ⟨drawn 6⟩

/-- `guild`, as a path has it. -/
def guild_text : Text := "019b8d62-7a80-7000-8000-000000000002".toList

/-- The password is `correct horse`, and the salt 16 bytes `0x33`. -/
def ada_phc : Text :=
  "$argon2id$v=19$m=19456,t=2,p=1$MzMzMzMzMzMzMzMzMzMzMw$qFRDDwWSDlVmSI7qLzBBJ6ST9mSXzwUHJNyLF2Kodgk".toList

def ada_hash : PasswordHash :=
  { dummy_hash with
    salt := some (List.replicate 16 0x33)
    hash := some [168, 84, 67, 15, 5, 146, 14, 85, 102, 72, 142, 234, 47, 48, 65, 39, 164, 147, 246,
      100, 151, 207, 5, 7, 36, 220, 139, 23, 98, 168, 118, 9] }

/-- The password is `battery staple`, and the salt 16 bytes `0x44`. -/
def grace_phc : Text :=
  "$argon2id$v=19$m=19456,t=2,p=1$RERERERERERERERERERERA$Sky6y+5qAj3pjaIfX/eLEAgdYz2fHGyqu+KZN66Y/BE".toList

def grace_hash : PasswordHash :=
  { dummy_hash with
    salt := some (List.replicate 16 0x44)
    hash := some [74, 76, 186, 203, 238, 106, 2, 61, 233, 141, 162, 31, 95, 247, 139, 16, 8, 29, 99,
      61, 159, 28, 108, 170, 187, 226, 153, 55, 174, 152, 252, 17] }

/-- 32 bytes `0x11`, in hexadecimal. -/
def session_token : Text := List.replicate 64 '1'

/-- 32 bytes `0x22`, in hexadecimal. -/
def invite_token : Text := List.replicate 64 '2'

/-- The `Cookie` header of who is signed in. -/
def cookies : List UInt8 := Utf8.encode ("__Host-fukulow_session=".toList ++ session_token)

/-- The body that Ada signs in with. -/
def credentials : List UInt8 := Utf8.encode
  "\x7b\"email\":\"ada@example.org\",\"password\":\"correct horse\"\x7d".toList

/-- The body that asks for an invite. -/
def terms : List UInt8 := Utf8.encode "\x7b\"expires_in\":3600,\"max_uses\":2\x7d".toList

/-- The body with which Grace accepts it. -/
def acceptance : List UInt8 := Utf8.encode ("\x7b\"token\":\"".toList ++ invite_token
  ++ "\",\"email\":\"grace@example.org\",\"password\":\"battery staple\",".toList
  ++ "\"display_name\":\"Grace\"\x7d".toList)

/-- Tables of what the libraries return on that day; of anything else they know nothing. A body
is read up to the 2 MiB that `axum` allows by default. -/
def recorded : Libraries where
  cookie headers name :=
    if headers.lookup "cookie" = some cookies ∧ name = sessions.COOKIE_NAME then some session_token
    else none
  bytes request := if request.body.length ≤ 2097152 then some request.body else none
  from_slice bytes := [
    (credentials, Value.object [("email".toList, .string "ada@example.org".toList),
      ("password".toList, .string "correct horse".toList)]),
    (terms, .object [("expires_in".toList, .number (.pos_int 3600)),
      ("max_uses".toList, .number (.pos_int 2))]),
    (acceptance, .object [("display_name".toList, .string "Grace".toList),
      ("email".toList, .string "grace@example.org".toList),
      ("password".toList, .string "battery staple".toList),
      ("token".toList, .string invite_token)])].lookup bytes
  to_vec value := Utf8.encode value.text
  set_cookie cookie := Utf8.encode (cookie.name.toList ++ '=' :: cookie.value
    ++ "; HttpOnly; SameSite=Strict; Secure; Path=".toList ++ cookie.path.toList
    ++ "; Max-Age=".toList ++ (toString cookie.max_age).toList)
  rfc3339 t := if t = nine + 3600 then some "2026-01-05T10:00:00Z".toList else none
  parse_str text := if text = guild_text then some guild.uuid else none
  sha256 bytes :=
    if bytes = Utf8.encode session_token then
      #v[49, 56, 187, 155, 199, 141, 242, 124, 71, 62, 207, 209, 65, 15, 123, 212, 94, 186, 193, 245,
        156, 243, 255, 156, 254, 77, 183, 122, 171, 122, 237, 211]
    else if bytes = Utf8.encode invite_token then
      #v[79, 46, 141, 101, 72, 60, 100, 22, 72, 205, 179, 116, 174, 157, 138, 189, 54, 141, 38, 158,
        77, 223, 254, 9, 42, 130, 55, 184, 22, 44, 221, 214]
    else Vector.replicate 32 0
  password_hash phc :=
    [(DUMMY_PASSWORD_HASH, dummy_hash), (ada_phc, ada_hash), (grace_phc, grace_hash)].lookup phc
  verifier _ password hash :=
    if (password, hash) ∈ [("correct horse".toList, ada_hash), ("battery staple".toList, grace_hash)]
    then .ok () else .error .passwordInvalid
  hash_password_with_salt password salt :=
    if password = Utf8.encode "battery staple".toList ∧ salt = Vector.replicate 16 0x44 then
      some grace_phc
    else none

/-- A request, for which the random source has the same bytes each time. -/
def sent (method : Method) (path : Text) (headers : List (String × List UInt8)) (body : List UInt8)
    (n : ℕ) : Arrival where
  request := ⟨method, path, ("host", Utf8.encode "chat.example.org".toList) :: headers, body⟩
  ambient := ⟨nine, some (Vector.replicate 32 0x11), some (Vector.replicate 32 0x22),
    some (Vector.replicate 16 0x44), drawn n⟩

/-- A request that a page of the origin sends, with a JSON body. -/
def posted (path : Text) (headers : List (String × List UInt8)) (body : List UInt8) (n : ℕ) :
    Arrival :=
  sent .POST path ([("origin", Utf8.encode origin),
    ("content-type", Utf8.encode "application/json".toList)] ++ headers) body n

/-- What an administrator does: nobody has invited Ada. -/
def administers : Call → Bool
  | .create_person _ _ _ actor => actor = ada
  | .create_organization .. => true
  | _ => false

/-- The call in flight goes on. -/
def goes_on (n : ℕ) : List (Txn.Service.Act Request Transaction Arrival) :=
  List.replicate n (.advance 0)

def acts : List (Txn.Service.Act Request Transaction Arrival) :=
  List.flatten
    [[.background 0 ⟨.create_person "ada@example.org".toList ada_phc "Ada".toList ada, ⟨nine, 1⟩⟩],
      goes_on 10,
      [.background 0 ⟨.create_organization ada "Guild".toList "guild".toList guild, ⟨nine, 2⟩⟩],
      goes_on 26,
      [.arrive 0 (posted "/api/v1/sessions".toList [] credentials 3), .submit 0 0 ⟨nine, 3⟩],
      goes_on 11,
      [.answer 0, .arrive 0 (sent .GET "/api/v1/me".toList [("cookie", cookies)] [] 4),
        .submit 0 0 ⟨nine, 4⟩], goes_on 2, [.submit 0 0 ⟨nine, 5⟩], goes_on 2,
      [.answer 0, .arrive 0 (posted
          ("/api/v1/organizations/".toList ++ guild_text ++ "/invites".toList) [("cookie", cookies)]
          terms 5),
        .submit 0 0 ⟨nine, 6⟩], goes_on 2, [.submit 0 0 ⟨nine, 7⟩], goes_on 21,
      [.answer 0, .arrive 0 (posted ACCEPT_PATH [] acceptance 6), .submit 0 0 ⟨nine, 8⟩], goes_on 2,
      [.submit 0 0 ⟨nine, 9⟩], goes_on 26,
      [.answer 0, .arrive 0 (posted "/api/v1/me".toList [("cookie", cookies)] [] 7), .answer 0]]

/-- The status of every answer. -/
def statuses (s : Server) : List (Option ℕ) :=
  s.answered.map fun a => a.answer.toOption.map fun r => r.status.code

end day

/-- Whom a call acts for, when it acts for someone who has to be there. -/
def Call.acts_for : Call → Option ActorId
  | .create_invite a .. | .revoke_invite a .. | .revoke_session a _ | .me a => some a
  | _ => none

/-- Did a request hear of a call that only looks? -/
def overheard (s : Server) : Bool :=
  s.answered.any fun a => a.past.any fun e => e.entry.call.call.looks && e.reply.isSome

/-- What the day leaves: answers, calls on record, and rows. -/
structure DayServed (s : Server) : Prop where
  serves : Serves day.recorded day.origin day.administers s
  answers : day.statuses s = [some 204, some 200, some 201, some 204, some 405]
  acted : s.system.world.history.map (fun e => e.call.call.acts_for)
    = [none, none, none, none, some day.ada, none, some day.ada, none, none]
  heard : overheard s = true
  session : (s.system.world.store.session day.session).map SessionRow.actor_id = some day.ada
  invite : (s.system.world.store.invite day.invite).map InviteRow.created_by_actor_id = some day.ada
  user : s.system.world.store.user day.grace = some ⟨"grace@example.org".toList, day.grace_phc⟩
  actor : (s.system.world.store.actor day.grace).bind ActorRow.display_name = some "Grace".toList

/-- The day is a run of the server: every step of it is one that the rules allow. -/
theorem a_day_served : ∃ s, DayServed s := by
  have hrun : ((service day.recorded day.origin day.administers).run Request.mk
      (Txn.Service.opened World.empty) day.acts).any (fun s =>
        day.statuses s = [some 204, some 200, some 201, some 204, some 405]
          && s.system.world.history.map (fun e => e.call.call.acts_for)
            = [none, none, none, none, some day.ada, none, some day.ada, none, none]
          && overheard s
          && (s.system.world.store.session day.session).map SessionRow.actor_id = some day.ada
          && (s.system.world.store.invite day.invite).map InviteRow.created_by_actor_id = some day.ada
          && s.system.world.store.user day.grace
            = some ⟨"grace@example.org".toList, day.grace_phc⟩
          && (s.system.world.store.actor day.grace).bind ActorRow.display_name
            = some "Grace".toList) = true := by
    decide +kernel
  obtain ⟨s, hs, hseen⟩ := (Option.any_eq_true _ _).mp hrun
  simp only [Bool.and_eq_true, decide_eq_true_eq] at hseen
  obtain ⟨⟨⟨⟨⟨⟨hanswers, hacted⟩, hheard⟩, hsession⟩, hinvite⟩, huser⟩, hactor⟩ := hseen
  refine ⟨s, Txn.Service.Reachable.of_run ?_ hs .refl, hanswers, hacted, hheard, hsession, hinvite,
    huser, hactor⟩
  intro c tx
  rfl

section Runs

variable {lib : Libraries} {origin : Text} {background : Call → Bool} {s : Server}

/-- **What every run keeps**, by the rule for services: the programs of the routes meet what is
asked of them, and the database answers as its programs can. -/
theorem serves_kept (h : Serves lib origin background s) :
    (service lib origin background).Kept (fun e => Known e) (Lawful lib origin) (Proper lib origin) s :=
  Txn.Service.Reachable.kept h rfl (fun i => meets_routes i) fun _ hd => hd.yields rfl

/-- Every finished call is one of the background, or one that its request may make. -/
theorem serves_owned (h : Serves lib origin background s) {pre post : List Entry} {e : Entry}
    (hs : s.system.world.history = pre ++ e :: post) : background e.call.call = true
      ∨ ∃ i n q, (service lib origin background).Owned s pre e i n q
        ∧ Lawful lib origin i q e.call.call :=
  (serves_kept h).owned pre e post hs

/-- The call of an entry ended as its program can. -/
theorem serves_known (h : Serves lib origin background s) {e : Entry}
    (he : e ∈ s.system.world.history) : Known e :=
  (Txn.Service.Reachable.system h).yields rfl e he

/-! ## All or nothing -/

/-- The calls of a request: they ended in this order after it came in, all but the last only
looked, and with a method that changes no state so did the last. -/
structure Transacts (s : Server) (i : Arrival) (n : ℕ) (past : List Heard) : Prop where
  order : (past.map Txn.Heard.entry).Sublist (s.system.world.history.drop n)
  looked : Looked past.dropLast
  changes : i.request.method.changes_state = false → Silent past

/-- What a request's calls have done so far. All but the last were followed by another call, and
before a call only looking is lawful. -/
theorem transacts {i : Arrival} {n : ℕ} {past : List Heard} (h : Serves lib origin background s)
    (htraced : (service lib origin background).Traced (Lawful lib origin) i past)
    (horder : (past.map Txn.Heard.entry).Sublist (s.system.world.history.drop n)) :
    Transacts s i n past where
  order := horder
  looked := by
    rcases List.eq_nil_or_concat past with rfl | ⟨q, e, rfl⟩
    · exact looked_nil
    · rw [List.concat_eq_append] at htraced ⊢
      rw [List.dropLast_concat]
      exact (htraced q e [] rfl).looked
  changes hmethod := by
    intro e he
    obtain ⟨q, q', rfl⟩ := List.append_of_mem he
    have hentry : e.entry ∈ s.system.world.history :=
      List.mem_of_mem_drop (horder.subset (List.mem_map.mpr ⟨e, he, rfl⟩))
    obtain hlooks | hchanges := (htraced q e q' rfl).changes
    · exact (serves_known h hentry).no_writes (looks_emits hlooks e.entry.call.tx)
    · cases hmethod.symm.trans hchanges

/-- **A request changes all it should or nothing**, whatever else goes on. Its calls end in their
order, and only the last may write; a request that is to change nothing writes nothing. Whoever
is answered gets a response, for no handler panics: with success every call has committed, and
with an error other than 500 nothing was written. Errors say nothing but their status, and the
methods of the path where the request's is not among them. -/
theorem requests_change_all_or_nothing (h : Serves lib origin background s) :
    (∀ i n past, Txn.Service.Record s i n past → Transacts s i n past)
    ∧ ∀ a ∈ s.answered, ∃ response, a.answer = .ok response ∧ Told a.past response.status
      ∧ (response.status.is_error = true → Bare lib origin a.request response) := by
  have hkept := serves_kept h
  refine ⟨?_, fun a ha => ?_⟩
  · rintro i n past (⟨m, x, hx, rfl, rfl, rfl⟩ | ⟨a, ha, rfl, rfl, rfl⟩)
    · exact transacts h (hkept.visit m x hx).traced (hkept.visit m x hx).past.order
    · obtain ⟨-, htraced, hfollows⟩ := hkept.answered a ha
      exact transacts h htraced hfollows.order
  · obtain ⟨hproper, -⟩ := hkept.answered a ha
    cases hanswer : a.answer with
    | ok response =>
        rw [hanswer] at hproper
        exact ⟨response, rfl, hproper⟩
    | error stop =>
        rw [hanswer] at hproper
        exact hproper.elim

theorem requests_change_all_or_nothing_in_a_day : ∃ s, Serves day.recorded day.origin day.administers s
    ∧ day.statuses s = [some 204, some 200, some 201, some 204, some 405]
    ∧ (∀ i n past, Txn.Service.Record s i n past → Transacts s i n past)
    ∧ ∀ a ∈ s.answered, ∃ response, a.answer = .ok response ∧ Told a.past response.status
      ∧ (response.status.is_error = true → Bare day.recorded day.origin a.request response) := by
  obtain ⟨s, hs⟩ := a_day_served
  exact ⟨s, hs.serves, hs.answers, requests_change_all_or_nothing hs.serves⟩

/-! ## Sessions -/

/-- In `db` there is a session of `a` with this token, neither revoked nor expired at `now`. -/
def LiveSession (db : Database) (hash : TokenHash) (now : Instant) (a : ActorId) : Prop :=
  ∃ j r, db.session j = some r ∧ r.token_hash = hash ∧ r.actor_id = a ∧ r.revoked_at = none
    ∧ now < r.expires_at

/-- A session that is resolved is live: the query asks for the token, and the row for revocation
and end. -/
theorem live_of_resolution {db : Database} {hash : TokenHash} {now : Instant} {a : ActorId}
    (h : resolution db hash now = some a) : LiveSession db hash now a := by
  obtain ⟨j, hhead, hlive⟩ := Option.bind_eq_some_iff.mp h
  obtain ⟨r, hr, rfl⟩ := Option.map_eq_some_iff.mp hlive
  obtain ⟨hrow, hcheck⟩ := Option.filter_eq_some_iff.mp hr
  obtain ⟨x, hx, rfl⟩ := mem_sessions_with_token.mp (List.mem_of_mem_head? hhead)
  cases hx.symm.trans hrow
  rw [SessionRow.live, Bool.and_eq_true, decide_eq_true_eq, decide_eq_true_eq] at hcheck
  exact ⟨j, r, hrow, rfl, rfl, hcheck.1, hcheck.2⟩

/-- What `resolve_session` has read: a live session, in a state since then. -/
theorem resolved_since {n : ℕ} {pre : List Entry} {e : Entry} {hash : TokenHash} {a : ActorId}
    {ws : List Write} (h : (engine anyCall).ReadSince n pre e)
    (hcall : e.call.call = .resolve_session hash)
    (hout : e.outcome = .committed ws (.resolve_session (.ok a))) :
    ∃ db ∈ (Txn.World.mk e.before pre).states.drop n, LiveSession db hash e.call.tx.now a := by
  have hcalled : e.call = ⟨.resolve_session hash, e.call.tx⟩ := hcall ▸ rfl
  have hbody : (engine anyCall).body e.call = .read fun db =>
      answered ((Request.mk (.resolve_session hash) e.call.tx).alone db).1 := by
    rw [hcalled]
    exact resolve_body hash e.call.tx
  have hdone : ∀ v, Txn.Engine.Done
      (answered ((Request.mk (.resolve_session hash) e.call.tx).alone v).1) := by
    intro v
    cases (Request.alone _ v).1 with
    | ok reply => exact .inl ⟨reply, rfl⟩
    | error reply => exact .inr ⟨reply, rfl⟩
  obtain haborted | ⟨db, hdb, hyields⟩ := h _ hbody hdone
  · cases hout.symm.trans haborted
  · refine ⟨db, hdb, live_of_resolution ?_⟩
    rw [resolve_alone, hout] at hyields
    cases hres : resolution db hash e.call.tx.now with
    | none =>
        rw [hres] at hyields
        cases hyields
    | some b =>
        rw [hres] at hyields
        cases hyields
        rfl

/-- **A request acts only for the holder of a live session.** Every call on record is one of the
background or one that a request may make. When it acts for someone, the cookie of that
request names a session of theirs, which the request had resolved before: the session was
live in a state that was committed after the request came in and before that call ended. -/
theorem requests_act_with_a_live_session (h : Serves lib origin background s) :
    ∀ pre e post, s.system.world.history = pre ++ e :: post → background e.call.call = true
      ∨ ∃ i n q, (service lib origin background).Owned s pre e i n q
        ∧ Lawful lib origin i q e.call.call ∧ ∀ a, e.call.call.acts_for = some a →
          ∃ hash, lib.presented i.request = some hash
            ∧ ∃ before r after, pre = before ++ r :: after ∧ n ≤ before.length
              ∧ r.call.call = .resolve_session hash
              ∧ ∃ db ∈ (Txn.World.mk r.before before).states.drop n,
                LiveSession db hash r.call.tx.now a := by
  intro pre e post hs
  refine (serves_owned h hs).imp_right ?_
  rintro ⟨i, n, q, howned, hlawful⟩
  refine ⟨i, n, q, howned, hlawful, fun a ha => ?_⟩
  -- Only the calls behind the extractor act for anybody, and each is made with what it resolved.
  have hresolved : Resolved lib i.request q a := by
    generalize e.call.call = c at hlawful ha
    cases hlawful.asks with
    | sign_in | resolve_session | invite_is_usable | accept_invite => cases ha
    | revoke_session _ _ hresolved | me _ hresolved | create_invite _ hresolved
    | revoke_invite _ hresolved =>
        cases ha
        exact hresolved
  obtain ⟨hash, r, hkey, hr, hcall, ws, hout⟩ := hresolved
  obtain ⟨before, after, hpre, hn, hread⟩ := howned.before.reads r hr
  exact ⟨hash, hkey, before, r.entry, after, hpre, hn, hcall, resolved_since hread hcall hout⟩

theorem requests_act_with_a_live_session_in_a_day :
    ∃ s, Serves day.recorded day.origin day.administers s
      ∧ ∃ pre e post, ∃ i : Arrival, s.system.world.history = pre ++ e :: post
        ∧ e.call.call.acts_for = some day.ada
        ∧ ∃ hash, day.recorded.presented i.request = some hash
          ∧ ∃ before r after, pre = before ++ r :: after ∧ r.call.call = .resolve_session hash
            ∧ ∃ db ∈ (Txn.World.mk r.before before).states,
              LiveSession db hash r.call.tx.now day.ada := by
  obtain ⟨s, hs⟩ := a_day_served
  have hacts : some (some day.ada)
      = (s.system.world.history.map fun e => e.call.call.acts_for)[6]? := by
    rw [hs.acted]
    rfl
  rw [List.getElem?_map] at hacts
  obtain ⟨e, he, hfor⟩ := Option.map_eq_some_iff.mp hacts.symm
  obtain ⟨pre, post, hsplit⟩ := List.append_of_mem (List.mem_of_getElem? he)
  obtain hback | ⟨i, n, q, -, -, hlive⟩ := requests_act_with_a_live_session hs.serves pre e post hsplit
  · -- What the administrator calls acts for nobody who has to be there.
    generalize e.call.call = c at hfor hback
    cases c with
    | create_person | create_organization => cases hfor
    | _ => cases hback
  · obtain ⟨hash, hkey, before, r, after, hpre, -, hcall, db, hdb, hsession⟩ := hlive day.ada hfor
    exact ⟨s, hs.serves, pre, e, post, i, hsplit, hfor, hash, hkey, before, r, after, hpre, hcall, db,
      List.mem_of_mem_drop hdb, hsession⟩

/-! ## Reads -/

/-- An answer is there when a result or an error is. -/
theorem done_answer {ε α : Type} {p : Sql ε α} {g : Except ε α → Reply}
    (h : (∃ a, p = .pure a) ∨ ∃ e, p = .throw e) :
    Txn.Engine.Done (p.answer g : Sql Reply Reply) := by
  obtain ⟨a, rfl⟩ | ⟨e, rfl⟩ := h
  · exact .inl ⟨g (.ok a), rfl⟩
  · exact .inr ⟨g (.error e), rfl⟩

/-- The calls that look read once, and are done then. -/
theorem looks_reads {c : Call} (h : c.looks = true) (tx : Transaction) :
    ∃ f, (Request.mk c tx).body = .read f ∧ ∀ db, Txn.Engine.Done (f db) := by
  cases c with
  | resolve_session hash =>
      refine ⟨_, resolve_body hash tx, fun db => ?_⟩
      cases ((Request.mk (.resolve_session hash) tx).alone db).1 with
      | ok reply => exact .inl ⟨reply, rfl⟩
      | error reply => exact .inr ⟨reply, rfl⟩
  | me a =>
      refine ⟨_, rfl, fun db => ?_⟩
      refine done_answer ?_
      dsimp only [Txn.Prog.bind]
      generalize Option.map _ (Option.filter _ (db.actor a)) = found
      cases found with
      | none => exact .inr ⟨_, rfl⟩
      | some me => exact .inl ⟨_, rfl⟩
  | invite_is_usable hash =>
      exact ⟨_, rfl, fun db => .inl ⟨_, rfl⟩⟩
  | _ => cases h

/-- Alone, such a call answers what its read shows, and leaves the state. -/
theorem alone_of_read {q : Request} {f : Database → Sql Reply Reply} {db : Database}
    {out : Outcome} (hbody : q.body = .read f) (hdone : Txn.Engine.Done (f db))
    (h : (f db).Yields [] out) {reply : Reply} (hreply : out.reply = some reply) :
    q.alone db = (.ok reply, db) ∨ q.alone db = (.error reply, db) := by
  have halone : q.alone db = (f db).exec Write.apply [] db := by
    rw [Request.alone, hbody]
    rfl
  obtain ⟨b, hb⟩ | ⟨b, hb⟩ := hdone
  · rw [hb] at h halone
    cases h with
    | pure =>
        cases hreply
        exact .inl halone
    | aborted => cases hreply
  · rw [hb] at h halone
    cases h with
    | throw =>
        cases hreply
        exact .inr halone
    | aborted => cases hreply

/-- **What a request reads is of one moment.** Whatever it hears of a call that only looks (whose
session it came with, who somebody is, whether an invite can be used) is what that call
answers alone on one state, committed after the request came in and before the call ended. -/
theorem requests_read_one_moment (h : Serves lib origin background s) :
    ∀ i n past, Txn.Service.Record s i n past → ∀ e ∈ past, e.entry.call.call.looks = true →
      ∀ reply, e.reply = some reply →
        ∃ pre post, s.system.world.history = pre ++ e.entry :: post ∧ n ≤ pre.length
          ∧ ∃ db ∈ (Txn.World.mk e.entry.before pre).states.drop n,
            e.entry.call.alone db = (.ok reply, db) ∨ e.entry.call.alone db = (.error reply, db) := by
  intro i n past hrecord e he hlooks reply hreply
  have hkept := serves_kept h
  have hfollows : (service lib origin background).Follows n s.system.world.history past := by
    obtain ⟨m, x, hx, rfl, rfl, rfl⟩ | ⟨a, ha, rfl, rfl, rfl⟩ := hrecord
    · exact (hkept.visit m x hx).past
    · exact (hkept.answered a ha).2.2
  obtain ⟨pre, post, hs, hn, hread⟩ := hfollows.reads e he
  have heard : e.entry.outcome.reply = some reply := by
    obtain hnone | hfits := e.fits
    · cases hnone.symm.trans hreply
    · exact hfits.symm.trans hreply
  obtain ⟨f, hbody, hdone⟩ := looks_reads hlooks e.entry.call.tx
  refine ⟨pre, post, hs, hn, ?_⟩
  -- An aborted call has no reply, so what was heard is what the read showed.
  obtain haborted | ⟨db, hdb, hyields⟩ := hread f hbody hdone
  · rw [haborted] at heard
    cases heard
  · exact ⟨db, hdb, alone_of_read hbody (hdone db) hyields heard⟩

theorem requests_read_one_moment_in_a_day : ∃ s, Serves day.recorded day.origin day.administers s
    ∧ ∃ (e : Heard) (reply : Reply), e.entry.call.call.looks = true ∧ e.reply = some reply
      ∧ ∃ pre post, s.system.world.history = pre ++ e.entry :: post
        ∧ ∃ db ∈ (Txn.World.mk e.entry.before pre).states,
          e.entry.call.alone db = (.ok reply, db) ∨ e.entry.call.alone db = (.error reply, db) := by
  obtain ⟨s, hs⟩ := a_day_served
  obtain ⟨a, ha, hpast⟩ := List.any_eq_true.mp hs.heard
  obtain ⟨e, he, hcheck⟩ := List.any_eq_true.mp hpast
  rw [Bool.and_eq_true, Option.isSome_iff_exists] at hcheck
  obtain ⟨hlooks, reply, hreply⟩ := hcheck
  obtain ⟨pre, post, hsplit, -, db, hdb, halone⟩ :=
    requests_read_one_moment hs.serves a.request a.since a.past (.inr ⟨a, ha, rfl, rfl, rfl⟩) e he hlooks
      reply hreply
  exact ⟨s, hs.serves, e, reply, hlooks, hreply, pre, post, hsplit, db, List.mem_of_mem_drop hdb,
    halone⟩

/-! ## The origin -/

/-- A request that is not turned away and may change state names the origin, once. -/
theorem origin_of_admitted {request : HttpRequest} (h : request.refused origin = false)
    (hmethod : request.method.changes_state = true) :
    request.get_all "origin" = [Utf8.encode origin] := by
  rw [HttpRequest.refused, hmethod, Bool.true_or, Bool.true_and, Bool.or_eq_false_iff,
    Bool.not_eq_false', List.isEmpty_iff] at h
  obtain ⟨hhead, htail⟩ := h
  cases horigins : request.get_all "origin" with
  | nil =>
      rw [horigins] at hhead
      cases hhead
  | cons o rest =>
      rw [horigins] at hhead htail
      cases htail
      rw [List.head?_cons, Option.all_some, decide_eq_false_iff_not, not_not] at hhead
      rw [hhead]

/-- **Only pages of the origin make the server change anything.** Whatever a call on record wrote,
it is one of the background, or its request has a method that changes state and names exactly
the configured origin. -/
theorem only_the_origin_changes_anything (h : Serves lib origin background s) :
    ∀ pre e post, s.system.world.history = pre ++ e :: post → background e.call.call = true
      ∨ e.outcome.writes = [] ∨ ∃ i n q, (service lib origin background).Owned s pre e i n q
        ∧ i.request.method.changes_state = true
        ∧ i.request.get_all "origin" = [Utf8.encode origin] := by
  intro pre e post hs
  refine (serves_owned h hs).imp_right ?_
  rintro ⟨i, n, q, howned, hlawful⟩
  have hknown : Known e := by
    refine serves_known h ?_
    rw [hs]
    exact List.mem_append_right _ List.mem_cons_self
  -- A call that looks writes nothing, whatever its request's method.
  obtain hlooks | hchanges := hlawful.changes
  · exact .inl (hknown.no_writes (looks_emits hlooks e.call.tx))
  · exact .inr ⟨i, n, q, howned, hchanges, origin_of_admitted hlawful.admitted hchanges⟩

theorem only_the_origin_changes_anything_in_a_day :
    ∃ s, Serves day.recorded day.origin day.administers s
      ∧ s.system.world.store.session day.session ≠ none
      ∧ ∀ pre e post, s.system.world.history = pre ++ e :: post → day.administers e.call.call = true
        ∨ e.outcome.writes = []
        ∨ ∃ i n q, (service day.recorded day.origin day.administers).Owned s pre e i n q
          ∧ i.request.method.changes_state = true
          ∧ i.request.get_all "origin" = [Utf8.encode day.origin] := by
  obtain ⟨s, hs⟩ := a_day_served
  refine ⟨s, hs.serves, ?_, only_the_origin_changes_anything hs.serves⟩
  intro hnone
  have hsession := hs.session
  rw [hnone] at hsession
  cases hsession

end Runs

end Fukulow
