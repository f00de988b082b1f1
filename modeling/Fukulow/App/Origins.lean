/-
`crates/app/src/config.rs` and `crates/app/src/http.rs`: the public origin, and the check of
every request against it.

`validate_public_origin` takes one string at startup; `protect` compares it, byte for byte, with
the `Origin` header of each request that changes state. The scheme, the port and the case are
checked down to the form that a browser writes. The host is only checked for case: a host that
browsers write another way (`127.0.0.01`, `[0:0:0:0:0:0:0:1]`), or that none can have, passes,
and the server then refuses every such request (`origin_as_sent_iff`).
-/
import Fukulow.App.Paths
import Fukulow.Web.Origin

set_option autoImplicit false

namespace Fukulow

/-! ## `config.rs` -/

/-- `http::Uri`, as far as it is asked. -/
structure Uri where
  scheme_str : Option Text
  authority : Option Text
  host : Option Text
deriving DecidableEq

inductive OriginError where
  | invalid
  | not_as_sent
  | insecure
deriving DecidableEq

/-- The messages of the errors. -/
def OriginError.message : OriginError → String
  | invalid => "FUKULOW_PUBLIC_ORIGIN must contain only scheme, host and optional port, without credentials, path, query, fragment or trailing slash"
  | not_as_sent => "FUKULOW_PUBLIC_ORIGIN must be written as a browser sends it: lower-case scheme and host, and no port when it is the scheme's default"
  | insecure => "FUKULOW_PUBLIC_ORIGIN requires HTTPS because the Secure __Host- session cookie is refused on insecure origins; HTTP is allowed only on localhost, 127.0.0.1 or [::1] for development"

/-- `Option::ok_or`. -/
def ok_or {τ : Type} (value : Option τ) (e : OriginError) : Except OriginError τ :=
  value.elim (.error e) .ok

/-- `if condition { return Err(e) }`. -/
def refuse_if (condition : Bool) (e : OriginError) : Except OriginError Unit :=
  if condition then .error e else .ok ()

/-- `str::split_once`: at the first occurrence. -/
def split_once (delimiter : Text) : Text → Option (Text × Text)
  | [] => (delimiter.isPrefixOf? []).map fun rest => ([], rest)
  | c :: value =>
      match delimiter.isPrefixOf? (c :: value) with
      | some rest => some ([], rest)
      | none => (split_once delimiter value).map fun parts => (c :: parts.1, parts.2)

/-- `str::parse::<u16>`. -/
def parse_u16 (value : Text) : Option ℕ :=
  let digits := if value.head? = some '+' then value.tail else value
  if digits.isEmpty || !digits.all Char.isDigit then none
  else some (Nat.ofDigitChars 10 digits 0) |>.filter fun n => n < 2 ^ 16

/-- What may come after the host: nothing, or a port as it is displayed. -/
def check_port (suffix : Text) : Except OriginError Unit :=
  if suffix.isEmpty then .ok ()
  else do
    let port ← ok_or ([':'].isPrefixOf? suffix) .invalid
    refuse_if ((parse_u16 port).map (Nat.toDigits 10) ≠ some port) .invalid

def default_port (scheme : Text) : Text :=
  if scheme = "https".toList then ":443".toList
  else if scheme = "http".toList then ":80".toList
  else []

def loopback_hosts : List Text := ["localhost".toList, "127.0.0.1".toList, "[::1]".toList]

/-- `value.to_ascii_lowercase()`. -/
def to_ascii_lowercase (value : Text) : Text := value.map Char.toLower

def authority_ends : List Char := ['/', '?', '#', '@']

/-- `parse` is `value.parse::<Uri>()`. -/
def validate_public_origin (parse : Text → Option Uri) (value : Text) : Except OriginError Unit := do
  let parts ← ok_or (split_once "://".toList value) .invalid
  let scheme := parts.1
  let authority := parts.2
  refuse_if (authority.isEmpty || authority.any authority_ends.contains) .invalid
  let uri ← ok_or (parse value) .invalid
  let host ← ok_or uri.host .invalid
  let parsed_authority ← ok_or uri.authority .invalid
  refuse_if (parsed_authority ≠ authority || uri.scheme_str ≠ some scheme) .invalid
  let suffix ← ok_or (host.isPrefixOf? authority) .invalid
  check_port suffix
  refuse_if (value ≠ to_ascii_lowercase value
    || (!(default_port scheme).isEmpty && suffix = default_port scheme)) .not_as_sent
  refuse_if (scheme ≠ "https".toList
    && !(scheme = "http".toList && loopback_hosts.contains host)) .insecure

/-! ## `http.rs` -/

inductive Method where
  | GET | HEAD | POST | PUT | PATCH | DELETE | OPTIONS | CONNECT | TRACE
  | extension (token : String)
deriving DecidableEq

structure HttpRequest where
  method : Method
  path : Text
  headers : List (String × List UInt8)
  body : List UInt8

structure HttpResponse where
  status : StatusCode
  headers : List (String × List UInt8)
  body : List UInt8

/-- `HeaderMap::get_all`, in the order the headers came; names are in lower case. -/
def HttpRequest.get_all (request : HttpRequest) (name : String) : List (List UInt8) :=
  (request.headers.filter fun header => header.1 = name).map Prod.snd

def StatusCode.FORBIDDEN : StatusCode := ⟨403⟩

def StatusCode.is_client_error (status : StatusCode) : Bool := 400 ≤ status.code && status.code < 500

def StatusCode.is_server_error (status : StatusCode) : Bool := 500 ≤ status.code && status.code < 600

/-- `status.into_response()`. -/
def StatusCode.into_response (status : StatusCode) : HttpResponse := ⟨status, [], []⟩

/-- `u8::to_ascii_lowercase`. -/
def lower_byte (b : UInt8) : UInt8 := if 65 ≤ b && b ≤ 90 then b + 32 else b

def eq_ignore_ascii_case (a b : List UInt8) : Bool := a.map lower_byte = b.map lower_byte

def Method.changes_state : Method → Bool
  | POST | PUT | PATCH | DELETE => true
  | _ => false

/-- Is the response of the rest of the stack passed on? Errors lose their body. -/
def HttpResponse.emptied (response : HttpResponse) : HttpResponse :=
  if response.status.is_client_error || response.status.is_server_error then
    response.status.into_response
  else response

def protect (origin : Text) (request : HttpRequest) (next : HttpRequest → HttpResponse) :
    HttpResponse :=
  let changes_state := request.method.changes_state
  let websocket := (request.get_all "upgrade").head?.any fun value =>
    eq_ignore_ascii_case value (Utf8.encode "websocket".toList)
  let origins := request.get_all "origin"
  if (changes_state || websocket)
      && (origins.head?.all (fun o => o ≠ Utf8.encode origin) || !origins.tail.isEmpty) then
    StatusCode.FORBIDDEN.into_response
  else (next request).emptied

/-! ## What is relied on -/

/-- A registered name in the letters of DNS, and no longer than DNS names are. -/
structure DnsName (text : Text) : Prop where
  nonempty : text ≠ []
  short : text.length ≤ 253
  letters : ∀ c ∈ text, c.isLower = true ∨ c.isDigit = true ∨ c = '-' ∨ c = '.'

/-- What is relied on of `Uri`'s parser on `http` and `https` URIs that end with the authority:
it splits them as RFC 3986 does, and it takes DNS names, addresses and ports. All of these are
short, so the longest URI that it takes is of no concern. -/
structure Rfc3986 (parse : Text → Option Uri) : Prop where
  splits : ∀ (scheme : Web.Scheme) authority uri, (∀ c ∈ authority, c ∉ authority_ends) →
    parse (scheme.text ++ "://".toList ++ authority) = some uri →
    uri = ⟨some scheme.text, some authority, some (Web.host_of authority)⟩
  takes : ∀ (scheme : Web.Scheme) host port,
    (DnsName host ∨ ∃ pieces, host = Web.literal pieces) →
    parse (scheme.text ++ "://".toList ++ (host ++ Web.port_suffix port)) ≠ none

/-- What is relied on of the conversion of domains to ASCII: it leaves DNS names alone, unless a
label claims to be the result of a conversion. -/
structure LeavesDnsNames (to_ascii : Text → Option Text) : Prop where
  fixed : ∀ text, DnsName text → (∀ label ∈ text.splitOn '.', ¬ "xn--".toList <+: label) →
    to_ascii text = some text

variable {parse : Text → Option Uri} {to_ascii : Text → Option Text} {value : Text}

/-! ## The steps -/

/-- Two steps let through what the second makes of the first. -/
theorem bind_ok {ε α β : Type} {x : Except ε α} {f : α → Except ε β} {b : β} :
    (x >>= f) = .ok b ↔ ∃ a, x = .ok a ∧ f a = .ok b := by
  cases x with
  | error e =>
      constructor
      · rintro ⟨⟩
      · rintro ⟨a, ⟨⟩, -⟩
  | ok a =>
      constructor
      · exact fun h => ⟨a, rfl, h⟩
      · rintro ⟨a, ⟨⟩, h⟩
        exact h

/-- `ok_or` lets a value through. -/
theorem ok_or_ok {τ : Type} {o : Option τ} {e : OriginError} {a : τ} :
    ok_or o e = .ok a ↔ o = some a := by
  cases o with
  | none =>
      constructor
      · rintro ⟨⟩
      · rintro ⟨⟩
  | some b =>
      constructor
      · rintro ⟨⟩
        rfl
      · rintro ⟨⟩
        rfl

/-- `refuse_if` lets through where its condition fails. -/
theorem refuse_if_ok {b : Bool} {e : OriginError} {u : Unit} :
    refuse_if b e = .ok u ↔ b = false := by
  cases b with
  | true =>
      constructor
      · rintro ⟨⟩
      · rintro ⟨⟩
  | false => exact ⟨fun _ => rfl, fun _ => rfl⟩

/-- What is split is put together again around the delimiter, and what comes before has none of it.
-/
theorem split_once_eq {delimiter : Text} {parts : Text × Text}
    (h : split_once delimiter value = some parts) : value = parts.1 ++ delimiter ++ parts.2 := by
  induction value generalizing parts with
  | nil =>
      obtain ⟨rest, hrest, rfl⟩ := Option.map_eq_some_iff.mp h
      exact (List.isPrefixOf?_eq_some_iff_append_eq.mp hrest).symm
  | cons c value ih =>
      rw [split_once] at h
      cases hfound : delimiter.isPrefixOf? (c :: value) with
      | some rest =>
          rw [hfound] at h
          cases h
          exact (List.isPrefixOf?_eq_some_iff_append_eq.mp hfound).symm
      | none =>
          rw [hfound] at h
          obtain ⟨tail, htail, rfl⟩ := Option.map_eq_some_iff.mp h
          have heq := ih htail
          rw [heq]
          rfl

/-- An origin is split behind its scheme, which has no colon. -/
theorem split_scheme (scheme : Web.Scheme) (authority : Text) :
    split_once "://".toList (scheme.text ++ "://".toList ++ authority)
      = some (scheme.text, authority) := by
  cases scheme <;> rfl

/-- A port that is read fits 16 bits. -/
theorem parse_u16_lt {n : ℕ} (h : parse_u16 value = some n) : n < 2 ^ 16 := by
  unfold parse_u16 at h
  generalize (if value.head? = some '+' then value.tail else value) = digits at h
  by_cases hbad : (digits.isEmpty || !digits.all Char.isDigit) = true
  · rw [if_pos hbad] at h
    cases h
  · rw [if_neg hbad] at h
    exact of_decide_eq_true (Option.filter_eq_some_iff.mp h).2

/-- A port as it is displayed is the port of an origin: the text is compared with the number
written again, so that leading zeros and a plus sign do not pass. -/
theorem displayed_iff {port : Text} :
    (parse_u16 port).map (Nat.toDigits 10) = some port ↔
      ∃ n : UInt16, port = Web.decimal n.toNat := by
  constructor
  · intro h
    obtain ⟨n, hn, rfl⟩ := Option.map_eq_some_iff.mp h
    refine ⟨UInt16.ofNat n, ?_⟩
    rw [UInt16.toNat_ofNat_of_lt' (parse_u16_lt hn)]
    rfl
  · rintro ⟨n, rfl⟩
    have hdigits : ∀ c ∈ Web.decimal n.toNat, c.isDigit = true := fun c hc =>
      Nat.isDigit_of_mem_toDigits (by decide) (by decide) hc
    -- `u16::from_str` takes a plus sign, and a decimal has none.
    have hsign : (Web.decimal n.toNat).head? ≠ some '+' := by
      intro hhead
      have := hdigits '+' (List.mem_of_mem_head? hhead)
      cases this
    have hread : parse_u16 (Web.decimal n.toNat) = some n.toNat := by
      rw [parse_u16, if_neg hsign, List.all_eq_true.mpr hdigits]
      have hempty : (Web.decimal n.toNat).isEmpty = false := by
        rw [List.isEmpty_eq_false_iff]
        exact Web.decimal_ne_nil n.toNat
      rw [hempty, Web.value_decimal]
      change (some n.toNat).filter (fun k => k < 2 ^ 16) = some n.toNat
      exact Option.filter_eq_some_iff.mpr ⟨rfl, decide_eq_true n.toNat_lt⟩
    rw [hread]
    rfl

/-- What may follow the host is nothing, or such a port. -/
theorem check_port_ok {suffix : Text} {u : Unit} :
    check_port suffix = .ok u ↔ ∃ port, suffix = Web.port_suffix port := by
  rw [check_port]
  by_cases hempty : suffix = []
  · subst hempty
    exact ⟨fun _ => ⟨none, rfl⟩, fun _ => rfl⟩
  · have hne : suffix.isEmpty = false := by rwa [List.isEmpty_eq_false_iff]
    rw [hne]
    simp only [Bool.false_eq_true, if_false, bind_ok, ok_or_ok, refuse_if_ok,
      List.isPrefixOf?_eq_some_iff_append_eq, decide_eq_false_iff_not, not_not, ne_eq]
    constructor
    · rintro ⟨port, rfl, hport⟩
      obtain ⟨n, rfl⟩ := displayed_iff.mp hport
      exact ⟨some n, rfl⟩
    · rintro ⟨port, rfl⟩
      cases port with
      | none => exact absurd rfl hempty
      | some n => exact ⟨Web.decimal n.toNat, rfl, displayed_iff.mpr ⟨n, rfl⟩⟩

/-! ## What is accepted -/

/-- What an accepted value looks like, apart from its host. -/
structure Shaped (parse : Text → Option Uri) (value : Text) (scheme : Web.Scheme)
    (authority : Text) (port : Option UInt16) : Prop where
  text : value = scheme.text ++ "://".toList ++ authority
  nonempty : authority ≠ []
  ends : ∀ c ∈ authority, c ∉ authority_ends
  parsed : parse value ≠ none
  split : authority = Web.host_of authority ++ Web.port_suffix port
  not_default : port ≠ some scheme.default_port
  lower : to_ascii_lowercase value = value

/-- The ports that are refused are those a browser leaves out. -/
theorem default_port_iff {scheme : Web.Scheme} {port : Option UInt16} :
    (!(default_port scheme.text).isEmpty && Web.port_suffix port = default_port scheme.text) = false
      ↔ port ≠ some scheme.default_port := by
  have hdefault : default_port scheme.text = Web.port_suffix (some scheme.default_port) := by
    cases scheme <;> decide
  have hinjective : Web.port_suffix port = Web.port_suffix (some scheme.default_port) ↔
      port = some scheme.default_port := by
    refine ⟨fun h => ?_, fun h => by rw [h]⟩
    cases port with
    | none => cases h
    | some n =>
        have hvalue := congrArg (fun digits => Nat.ofDigitChars 10 digits 0) (List.cons.inj h).2
        rw [Web.value_decimal, Web.value_decimal] at hvalue
        rw [UInt16.toNat_inj.mp hvalue]
  have hfull : (Web.port_suffix (some scheme.default_port)).isEmpty = false := rfl
  rw [hdefault, hfull, Bool.not_false, Bool.true_and, decide_eq_false_iff_not, hinjective]

/-- **What `validate_public_origin` accepts**: any host with `https`, and the loopback hosts with
`http`. Apart from the host, an accepted value is put together as an origin is. -/
theorem validate_ok (hparse : Rfc3986 parse) : validate_public_origin parse value = .ok () ↔
    ∃ scheme authority port, Shaped parse value scheme authority port
      ∧ (scheme = .http → Web.host_of authority ∈ loopback_hosts) := by
  have hends : ∀ {authority : Text}, (authority.isEmpty || authority.any authority_ends.contains)
      = false ↔ authority ≠ [] ∧ ∀ c ∈ authority, c ∉ authority_ends := by
    intro authority
    rw [Bool.or_eq_false_iff, List.isEmpty_eq_false_iff, List.any_eq_false]
    simp only [List.contains_iff_mem, ne_eq]
  simp only [validate_public_origin, bind_ok, ok_or_ok, refuse_if_ok, check_port_ok, hends,
    List.isPrefixOf?_eq_some_iff_append_eq, exists_and_left, exists_const]
  constructor
  · rintro ⟨⟨name, authority⟩, hsplit, ⟨hne, hplain⟩, uri, huri, host, hhost, parsed, hparsed,
      hsame, suffix, hsuffix, ⟨port, rfl⟩, hsent, hscheme⟩
    dsimp only at hne hplain hsame hsuffix hsent hscheme
    rw [Bool.or_eq_false_iff, decide_eq_false_iff_not, not_not] at hsent
    -- The last check leaves two schemes.
    obtain ⟨scheme, rfl⟩ : ∃ scheme : Web.Scheme, name = scheme.text := by
      rw [Bool.and_eq_false_iff, decide_eq_false_iff_not, not_not, Bool.not_eq_false',
        Bool.and_eq_true, decide_eq_true_eq] at hscheme
      rcases hscheme with hhttps | ⟨hhttp, -⟩
      · exact ⟨.https, hhttps⟩
      · exact ⟨.http, hhttp⟩
    have htext := split_once_eq hsplit
    dsimp only at htext
    rw [htext] at huri
    cases hparse.splits scheme authority uri hplain huri
    cases hhost
    refine ⟨scheme, authority, port, ⟨htext, hne, hplain, ?_, hsuffix.symm,
      default_port_iff.mp hsent.2, hsent.1.symm⟩, ?_⟩
    · rw [htext, huri]
      exact Option.some_ne_none _
    · rintro rfl
      cases hhost : loopback_hosts.contains (Web.host_of authority) with
      | true => exact List.contains_iff_mem.mp hhost
      | false =>
          rw [hhost] at hscheme
          cases hscheme
  · rintro ⟨scheme, authority, port, h, hloopback⟩
    obtain ⟨uri, huri⟩ := Option.ne_none_iff_exists'.mp h.parsed
    have huri' := huri
    rw [h.text] at huri'
    have hsplit := hparse.splits scheme authority uri h.ends huri'
    refine ⟨(scheme.text, authority), ?_, ⟨h.nonempty, h.ends⟩, uri, huri, Web.host_of authority,
      by rw [hsplit], authority, by rw [hsplit], ?_, Web.port_suffix port, h.split.symm, ⟨port, rfl⟩,
      ?_, ?_⟩
    · rw [h.text]
      exact split_scheme scheme authority
    · rw [hsplit]
      simp
    · rw [h.lower, default_port_iff.mpr h.not_default]
      simp
    · cases scheme with
      | https => rfl
      | http =>
          have hhost : loopback_hosts.contains (Web.host_of authority) = true :=
            List.contains_iff_mem.mpr (hloopback rfl)
          rw [hhost]
          rfl

/-! ## What browsers send -/

/-- `https`, or a loopback host with `http`. -/
def Permitted (o : Web.Origin to_ascii) : Prop :=
  o.scheme = .http → o.host.serialize ∈ loopback_hosts

/-- An address, or a DNS name. -/
def Named (host : Web.Host) : Prop :=
  ∀ text, host = .domain text → DnsName text

/-- What `validate_public_origin` is for: what it accepts is the origin that a browser sends, so
that `protect` lets the browser's requests through; and it accepts each such origin. -/
structure AsSent (parse : Text → Option Uri) (to_ascii : Text → Option Text) (value : Text) :
    Prop where
  sent : validate_public_origin parse value = .ok () → ∃ o : Web.Origin to_ascii,
    value = o.serialize ∧ Permitted o
      ∧ ∀ request next, request.get_all "origin" = [Utf8.encode o.serialize] →
        protect value request next = (next request).emptied
  accepted : ∀ o : Web.Origin to_ascii, value = o.serialize → Permitted o →
    Named o.host → validate_public_origin parse value = .ok ()

/-- The host is misspelt: it is no domain, no four decimals and no compressed IPv6 address. -/
structure MisspeltHost (to_ascii : Text → Option Text) (host : Text) : Prop where
  domain : ¬ Web.IsDomain to_ascii host
  ipv4 : ∀ a b c d, host ≠ Web.dotted a b c d
  ipv6 : ∀ pieces, host ≠ Web.literal pieces

/-- An `https` origin in order but for its host. -/
def Misspelt (parse : Text → Option Uri) (to_ascii : Text → Option Text) (value : Text) : Prop :=
  ∃ authority port, Shaped parse value .https authority port
    ∧ MisspeltHost to_ascii (Web.host_of authority)

/-- A host that is not misspelt is one that a browser writes. -/
theorem not_misspelt_iff {host : Text} : ¬ MisspeltHost to_ascii host ↔
    ∃ h : Web.Host, h.Valid to_ascii ∧ h.serialize = host := by
  constructor
  · intro hnot
    by_contra hnone
    refine hnot ⟨fun hdomain => hnone ⟨.domain host, ?_, rfl⟩, ?_, ?_⟩
    · rintro text ⟨⟩
      exact hdomain
    · rintro a b c d rfl
      exact hnone ⟨.ipv4 a b c d, by rintro _ ⟨⟩, rfl⟩
    · rintro pieces rfl
      exact hnone ⟨.ipv6 pieces, by rintro _ ⟨⟩, rfl⟩
  · rintro ⟨h, hvalid, rfl⟩ hmisspelt
    cases h with
    | domain text => exact hmisspelt.domain (hvalid text rfl)
    | ipv4 a b c d => exact hmisspelt.ipv4 a b c d rfl
    | ipv6 pieces => exact hmisspelt.ipv6 pieces rfl

/-- The one header is the configured origin, byte for byte. -/
theorem protect_passes {origin : Text} {request : HttpRequest} {next : HttpRequest → HttpResponse}
    (h : request.get_all "origin" = [Utf8.encode origin]) :
    protect origin request next = (next request).emptied := by
  rw [protect, h]
  simp

/-- The loopback hosts are written as browsers write them. -/
theorem loopback_host (hascii : LeavesDnsNames to_ascii) {host : Text} (h : host ∈ loopback_hosts) :
    ∃ x : Web.Host, x.Valid to_ascii ∧ x.serialize = host := by
  rcases List.mem_cons.mp h with rfl | h
  · refine ⟨.domain "localhost".toList, ?_, rfl⟩
    rintro text ⟨⟩
    have hall : ∀ c ∈ "localhost".toList, c.isLower = true ∧ c.toNat < 0x80
        ∧ Web.forbidden c = false := by
      change ∀ c ∈ ['l', 'o', 'c', 'a', 'l', 'h', 'o', 's', 't'], _
      intro c hc
      fin_cases hc <;> decide
    exact ⟨by decide, fun c hc => (hall c hc).2.1, by decide, fun c hc => (hall c hc).2.2,
      by decide, hascii.fixed _ ⟨by decide, by decide, fun c hc => .inl (hall c hc).1⟩ (by decide)⟩
  rcases List.mem_cons.mp h with rfl | h
  · exact ⟨.ipv4 127 0 0 1, by rintro _ ⟨⟩, by decide⟩
  · rw [List.mem_singleton.mp h]
    exact ⟨.ipv6 #v[0, 0, 0, 0, 0, 0, 0, 1], by rintro _ ⟨⟩, by decide⟩

/-- What comes after the scheme is determined, as no scheme has a colon. -/
theorem authority_unique {scheme scheme' : Web.Scheme} {authority authority' : Text}
    (h : scheme.text ++ "://".toList ++ authority = scheme'.text ++ "://".toList ++ authority') :
    authority = authority' := by
  have hsplit := split_scheme scheme authority
  rw [h, split_scheme] at hsplit
  exact (Prod.mk.inj (Option.some.inj hsplit)).2.symm

/-- A misspelt origin is accepted, and no browser sends it: the host of what a browser sends could
be read off, and would be well spelt. -/
theorem Misspelt.not_as_sent (hparse : Rfc3986 parse) (h : Misspelt parse to_ascii value) :
    validate_public_origin parse value = .ok ()
      ∧ ∀ o : Web.Origin to_ascii, value ≠ o.serialize := by
  obtain ⟨authority, port, hshaped, hmisspelt⟩ := h
  refine ⟨(validate_ok hparse).mpr ⟨.https, authority, port, hshaped, by rintro ⟨⟩⟩, ?_⟩
  intro o hvalue
  have hauthority : authority = o.host.serialize ++ Web.port_suffix o.port :=
    authority_unique (hshaped.text.symm.trans hvalue)
  refine not_misspelt_iff.mpr ⟨o.host, o.valid, ?_⟩ hmisspelt
  rw [hauthority, Web.host_of_serialize o.valid]

/-- Nothing in an origin ends an authority, and nothing in it is upper case. -/
theorem plain_authority (o : Web.Origin to_ascii) {c : Char}
    (hc : c ∈ o.host.serialize ++ Web.port_suffix o.port) : Web.Plain c := by
  rcases List.mem_append.mp hc with hhost | hport
  · exact Web.Host.plain o.valid hhost
  · exact Web.mem_port_suffix hport

/-- An IPv4 address has the letters of a DNS name, and at most fifteen of them. -/
theorem dns_dotted (a b c d : UInt8) : DnsName (Web.dotted a b c d) := by
  have hdigit : ∀ x ∈ '.' :: Web.decimal_digits,
      x.isLower = true ∨ x.isDigit = true ∨ x = '-' ∨ x = '.' := by
    intro x hx
    fin_cases hx <;> decide
  have hshort : ∀ n : UInt8, (Web.decimal n.toNat).length ≤ 3 :=
    fun n => Nat.toDigits_length 10 n.toNat 3 (by decide) (n.toNat_lt.trans (by decide))
  refine ⟨?_, ?_, fun x hx => hdigit x (Web.mem_dotted hx)⟩
  · intro hnil
    exact Web.decimal_ne_nil a.toNat (List.append_eq_nil_iff.mp hnil).1
  · have ha := hshort a
    have hb := hshort b
    have hc := hshort c
    have hd := hshort d
    simp only [Web.dotted, List.length_append, List.length_cons]
    omega

/-- An origin has the shape that is checked: the parser takes it and gives back its parts. -/
theorem origin_shaped (hparse : Rfc3986 parse) (o : Web.Origin to_ascii) (hnamed : Named o.host) :
    Shaped parse o.serialize o.scheme (o.host.serialize ++ Web.port_suffix o.port) o.port where
  text := rfl
  nonempty h := Web.Host.serialize_ne_nil o.valid (List.append_eq_nil_iff.mp h).1
  ends c hc := by
    obtain ⟨h₁, h₂, h₃, h₄, -⟩ := plain_authority o hc
    simp [authority_ends, h₁, h₂, h₃, h₄]
  parsed := by
    refine hparse.takes o.scheme o.host.serialize o.port ?_
    cases hhost : o.host with
    | domain text => exact .inl (hnamed text hhost)
    | ipv4 a b c d => exact .inl (dns_dotted a b c d)
    | ipv6 pieces => exact .inr ⟨pieces, rfl⟩
  split := by rw [Web.host_of_serialize o.valid]
  not_default := o.not_default
  lower := by
    have hrest : (o.host.serialize ++ Web.port_suffix o.port).map Char.toLower
        = o.host.serialize ++ Web.port_suffix o.port :=
      (List.map_congr_left fun c hc => (plain_authority o hc).2.2.2.2).trans (List.map_id _)
    have hscheme : o.scheme.text.map Char.toLower = o.scheme.text := by
      cases o.scheme <;> decide
    rw [to_ascii_lowercase, Web.Origin.serialize, List.map_append, List.map_append, hrest, hscheme]
    rfl

/-- **An accepted origin is what a browser sends**, and every origin that a browser sends from a
named host is accepted, unless the value is an `https` origin in order but for its host, which is
misspelt. -/
theorem origin_as_sent_iff (hparse : Rfc3986 parse) (hascii : LeavesDnsNames to_ascii)
    (value : Text) : AsSent parse to_ascii value ↔ ¬ Misspelt parse to_ascii value := by
  constructor
  · intro h hmisspelt
    obtain ⟨hok, hnone⟩ := hmisspelt.not_as_sent hparse
    obtain ⟨o, ho, -⟩ := h.sent hok
    exact hnone o ho
  · intro hnot
    refine ⟨?_, ?_⟩
    · intro hok
      obtain ⟨scheme, authority, port, hshaped, hloopback⟩ := (validate_ok hparse).mp hok
      -- The only thing that the check leaves open is how the host is spelt.
      have hhost : ∃ h : Web.Host, h.Valid to_ascii ∧ h.serialize = Web.host_of authority := by
        cases scheme with
        | http => exact loopback_host hascii (hloopback rfl)
        | https =>
            refine not_misspelt_iff.mp fun hmisspelt => ?_
            exact hnot ⟨authority, port, hshaped, hmisspelt⟩
      obtain ⟨host, hvalid, hserialize⟩ := hhost
      have hvalue : value = (Web.Origin.mk scheme host port hvalid hshaped.not_default).serialize := by
        refine hshaped.text.trans ?_
        rw [Web.Origin.serialize, hserialize, ← hshaped.split]
      refine ⟨⟨scheme, host, port, hvalid, hshaped.not_default⟩, hvalue, ?_, ?_⟩
      · intro hscheme
        rw [hserialize]
        exact hloopback hscheme
      · intro request next hrequest
        rw [← hvalue] at hrequest
        exact protect_passes hrequest
    · rintro o rfl hpermitted hnamed
      refine (validate_ok hparse).mpr ⟨o.scheme, _, o.port, origin_shaped hparse o hnamed, ?_⟩
      intro hscheme
      rw [Web.host_of_serialize o.valid]
      exact hpermitted hscheme

/-- A parser that takes whatever it can split. -/
def split_uri (value : Text) : Option Uri :=
  (split_once "://".toList value).bind fun parts =>
    if parts.2.any authority_ends.contains then none
    else some ⟨some parts.1, some parts.2, some (Web.host_of parts.2)⟩

/-- It is what is relied on of the parser. -/
theorem split_uri_splits : Rfc3986 split_uri where
  splits scheme authority uri hends h := by
    have hany : authority.any authority_ends.contains = false := by
      rw [List.any_eq_false]
      intro c hc
      rw [List.contains_iff_mem]
      exact hends c hc
    rw [split_uri, split_scheme, Option.bind_some, hany] at h
    cases h
    rfl
  takes scheme host port hhost := by
    have hplain : ∀ {c : Char}, Web.Plain c → c ∉ authority_ends := by
      rintro c ⟨h₁, h₂, h₃, h₄, -⟩
      simp [authority_ends, h₁, h₂, h₃, h₄]
    have hchars : ∀ c ∈ host ++ Web.port_suffix port, c ∉ authority_ends := by
      intro c hc
      rcases List.mem_append.mp hc with hmem | hport
      · rcases hhost with hname | ⟨pieces, rfl⟩
        · intro hend
          have hletter := hname.letters c hmem
          fin_cases hend <;> simp at hletter
        · have hvalid : Web.Host.Valid some (.ipv6 pieces) := by rintro _ ⟨⟩
          exact hplain (Web.Host.plain hvalid hmem)
      · exact hplain (Web.mem_port_suffix hport)
    have hany : (host ++ Web.port_suffix port).any authority_ends.contains = false := by
      rw [List.any_eq_false]
      intro c hc
      rw [List.contains_iff_mem]
      exact hchars c hc
    rw [split_uri, split_scheme, Option.bind_some, hany]
    rintro ⟨⟩

/-- Where nothing has to be converted, nothing is. -/
theorem some_leaves_dns_names : LeavesDnsNames some where
  fixed _ _ _ := rfl

/-- The loopback address is such an origin. -/
theorem origin_as_sent_iff_loopback : AsSent split_uri some "https://[::1]:8443".toList := by
  refine (origin_as_sent_iff split_uri_splits some_leaves_dns_names _).mpr ?_
  rintro ⟨authority, port, hshaped, hmisspelt⟩
  have hauthority : "[::1]:8443".toList = authority :=
    @authority_unique .https .https _ _ hshaped.text
  subst hauthority
  exact hmisspelt.ipv6 #v[0, 0, 0, 0, 0, 0, 0, 1] (by decide)

/-- What comes after the last dot is determined. -/
theorem last_label_unique {before after before' after' : Text} (h : '.' ∉ after) (h' : '.' ∉ after')
    (heq : before ++ '.' :: after = before' ++ '.' :: after') : after = after' := by
  have hlast : ∀ {before after : Text}, '.' ∉ after →
      (before ++ '.' :: after).reverse.takeWhile (· ≠ '.') = after.reverse := by
    intro before after hnot
    have hpos : ∀ c ∈ after.reverse, decide (c ≠ '.') = true := by
      intro c hc
      rw [decide_eq_true_eq]
      rintro rfl
      exact hnot (List.mem_reverse.mp hc)
    rw [List.reverse_append, List.reverse_cons, List.append_assoc,
      List.takeWhile_append_of_pos hpos]
    simp
  have hrev : (before ++ '.' :: after).reverse.takeWhile (· ≠ '.') = after.reverse := hlast h
  rw [heq, hlast h'] at hrev
  exact (List.reverse_injective hrev).symm

/-- **An address with a leading zero** is accepted. A browser writes it without, so each of its
requests that change state is refused. -/
theorem leading_zero_is_accepted : Rfc3986 split_uri ∧ LeavesDnsNames some
    ∧ validate_public_origin split_uri "https://127.0.0.01".toList = .ok ()
    ∧ ¬ AsSent split_uri some "https://127.0.0.01".toList := by
  have hmisspelt : Misspelt split_uri some "https://127.0.0.01".toList := by
    refine ⟨"127.0.0.01".toList, none, ⟨rfl, by decide, ?_, by decide, rfl, by rintro ⟨⟩, by decide⟩,
      ?_, ?_, ?_⟩
    · change ∀ c ∈ ['1', '2', '7', '.', '0', '.', '0', '.', '0', '1'], _
      intro c hc
      fin_cases hc <;> decide
    · intro hdomain
      exact absurd hdomain.name (by decide)
    · intro a b c d heq
      have hlabel : ['0', '1'] = Web.decimal d.toNat := by
        have hdotted : Web.dotted a b c d = (Web.decimal a.toNat ++ '.' :: (Web.decimal b.toNat
            ++ '.' :: Web.decimal c.toNat)) ++ '.' :: Web.decimal d.toNat := by
          simp only [Web.dotted, List.append_assoc, List.cons_append]
        have hnot : '.' ∉ Web.decimal d.toNat := fun hdot =>
          absurd (Web.mem_decimal hdot) (by decide)
        have hbefore : "127.0.0".toList ++ '.' :: ['0', '1'] = Web.dotted a b c d := heq
        exact last_label_unique (by decide) hnot (hbefore.trans hdotted)
      have hvalue : d.toNat = 1 := by
        rw [← Web.value_decimal d.toNat, ← hlabel]
        rfl
      rw [hvalue] at hlabel
      exact absurd hlabel (by decide)
    · rintro pieces ⟨⟩
  obtain ⟨hok, hnone⟩ := hmisspelt.not_as_sent split_uri_splits
  refine ⟨split_uri_splits, some_leaves_dns_names, hok, fun h => ?_⟩
  obtain ⟨o, ho, -⟩ := h.sent hok
  exact hnone o ho

end Fukulow
