/-
Origins as a browser serializes them.

A browser writes one text for an origin: the scheme, the host in the form its own host parser
returns, and the port unless it is the scheme's default. A host is a domain, an IPv4 address as
four decimals, or an IPv6 address in brackets, compressed. A domain is a text that the host
parser takes and leaves as it is: in lower case, without a code point that is forbidden in
domains, fixed by the conversion to ASCII, and not ending in a number, since such a text is read
as an IPv4 address. The conversion itself (`to_ascii`) is a parameter.

Nothing here parses; an `Origin` carries what makes it one that a browser can be on, and the
lemmas say which characters its text is made of.
-/
import Mathlib

set_option autoImplicit false

namespace Web

/-! ## Texts that read as numbers -/

def is_digit (c : Char) : Bool := '0' ≤ c && c ≤ '9'

def is_hex_digit (c : Char) : Bool :=
  is_digit c || ('a' ≤ c && c ≤ 'f') || ('A' ≤ c && c ≤ 'F')

/-- Decimal digits, or hexadecimal ones behind `0x`. -/
def is_number : List Char → Bool
  | [] => false
  | '0' :: 'x' :: digits | '0' :: 'X' :: digits => digits.all is_hex_digit
  | digits => digits.all is_digit

/-- Is the last label, apart from an empty one behind a final dot, a number? -/
def ends_in_number (text : List Char) : Bool :=
  match (text.splitOn '.').reverse with
  | [] :: label :: _ => is_number label
  | label :: _ => is_number label
  | [] => false

/-! ## Hosts -/

/-- The forbidden domain code points. -/
def forbidden (c : Char) : Bool :=
  c.toNat ≤ 0x20 || c.toNat = 0x7F
    || ['#', '/', ':', '<', '>', '?', '@', '[', '\\', ']', '^', '|', '%'].contains c

/-- A domain in the form the host parser returns. -/
structure IsDomain (to_ascii : List Char → Option (List Char)) (text : List Char) : Prop where
  nonempty : text ≠ []
  ascii : ∀ c ∈ text, c.toNat < 0x80
  lower : text.map Char.toLower = text
  allowed : ∀ c ∈ text, forbidden c = false
  name : ends_in_number text = false
  fixed : to_ascii text = some text

/-- An IPv6 address, in eight pieces. -/
abbrev Pieces : Type := Vector UInt16 8

inductive Host where
  | domain (text : List Char)
  | ipv4 (a b c d : UInt8)
  | ipv6 (pieces : Pieces)

/-- Shortest decimal. -/
def decimal (n : ℕ) : List Char := Nat.toDigits 10 n

/-- Shortest lower-case hexadecimal. -/
def hexadecimal (n : ℕ) : List Char := Nat.toDigits 16 n

def dotted (a b c d : UInt8) : List Char :=
  decimal a.toNat ++ '.' :: (decimal b.toNat ++ '.' :: (decimal c.toNat ++ '.' :: decimal d.toNat))

/-- How many zeros the pieces begin with. -/
def zeros (pieces : List UInt16) : ℕ := (pieces.takeWhile (· = 0)).length

/-- The place and the length of the first longest run of zeros; length 1 means none. -/
def compressed_run (pieces : List UInt16) : ℕ × ℕ :=
  (List.range pieces.length).foldl
    (fun best i => if best.2 < zeros (pieces.drop i) then (i, zeros (pieces.drop i)) else best)
    (0, 1)

/-- Pieces with colons between them. -/
def colons : List UInt16 → List Char
  | [] => []
  | [piece] => hexadecimal piece.toNat
  | piece :: pieces => hexadecimal piece.toNat ++ ':' :: colons pieces

/-- The text between the brackets. -/
def compressed (pieces : Pieces) : List Char :=
  let run := compressed_run pieces.toList
  if run.2 = 1 then colons pieces.toList
  else colons (pieces.toList.take run.1) ++ [':', ':'] ++ colons (pieces.toList.drop (run.1 + run.2))

/-- An IPv6 address as a host. -/
def literal (pieces : Pieces) : List Char := '[' :: (compressed pieces ++ [']'])

example : literal #v[0, 0, 0, 0, 0, 0, 0, 1] = "[::1]".toList := by decide

def Host.serialize : Host → List Char
  | domain text => text
  | ipv4 a b c d => dotted a b c d
  | ipv6 pieces => literal pieces

/-! ## Origins -/

inductive Scheme where
  | http
  | https
deriving DecidableEq

def Scheme.text : Scheme → List Char
  | http => "http".toList
  | https => "https".toList

def Scheme.default_port : Scheme → UInt16
  | http => 80
  | https => 443

/-- A domain among the hosts is in the form the host parser returns. -/
def Host.Valid (to_ascii : List Char → Option (List Char)) (host : Host) : Prop :=
  ∀ text, host = .domain text → IsDomain to_ascii text

/-- An origin that a browser can be on. -/
structure Origin (to_ascii : List Char → Option (List Char)) where
  scheme : Scheme
  host : Host
  port : Option UInt16
  valid : host.Valid to_ascii
  not_default : port ≠ some scheme.default_port

/-- The port, with its colon. -/
def port_suffix (port : Option UInt16) : List Char :=
  port.elim [] fun n => ':' :: decimal n.toNat

def Origin.serialize {to_ascii : List Char → Option (List Char)} (o : Origin to_ascii) :
    List Char :=
  o.scheme.text ++ "://".toList ++ (o.host.serialize ++ port_suffix o.port)

/-- The host in an authority without user information: what is bracketed, or what comes before
the first colon. -/
def host_of : List Char → List Char
  | '[' :: rest => '[' :: (rest.takeWhile (· ≠ ']') ++ [']'])
  | authority => authority.takeWhile (· ≠ ':')

/-! ## Characters -/

def decimal_digits : List Char := ['0', '1', '2', '3', '4', '5', '6', '7', '8', '9']

/-- What the text of an IPv6 address is made of. -/
def piece_chars : List Char := ':' :: 'a' :: 'b' :: 'c' :: 'd' :: 'e' :: 'f' :: decimal_digits

/-- Every character of a number is one of its digits. -/
theorem mem_toDigits {b n : ℕ} (hb : 1 < b) {c : Char} (h : c ∈ Nat.toDigits b n) :
    ∃ d < b, c = Nat.digitChar d := by
  induction n using Nat.strong_induction_on with
  | _ n ih =>
      rw [Nat.toDigits_eq_if hb] at h
      by_cases hn : n < b
      · rw [if_pos hn, List.mem_singleton] at h
        exact ⟨n, hn, h⟩
      · rw [if_neg hn, List.mem_append, List.mem_singleton] at h
        rcases h with hrest | hlast
        · exact ih (n / b) (Nat.div_lt_self (by omega) hb) hrest
        · exact ⟨n % b, Nat.mod_lt n (by omega), hlast⟩

/-- A decimal has decimal digits only. -/
theorem mem_decimal {n : ℕ} {c : Char} (h : c ∈ decimal n) : c ∈ decimal_digits := by
  have hdigit : ∀ d < 10, Nat.digitChar d ∈ decimal_digits := by decide
  obtain ⟨d, hd, rfl⟩ := mem_toDigits (by decide) h
  exact hdigit d hd

/-- Also zero is written. -/
theorem decimal_ne_nil (n : ℕ) : decimal n ≠ [] := Nat.toDigits_ne_nil

/-- A decimal is read back as the number it was written for. -/
theorem value_decimal (n : ℕ) : Nat.ofDigitChars 10 (decimal n) 0 = n :=
  Nat.ofDigitChars_ten_toDigits

/-- The characters of a hexadecimal number are among those of an address. -/
theorem mem_hexadecimal {n : ℕ} {c : Char} (h : c ∈ hexadecimal n) :
    c ∈ piece_chars := by
  have hdigit : ∀ d < 16, Nat.digitChar d ∈ piece_chars := by decide
  obtain ⟨d, hd, rfl⟩ := mem_toDigits (by decide) h
  exact hdigit d hd

/-- Pieces with colons add nothing but the colons. -/
theorem mem_colons {pieces : List UInt16} {c : Char} (h : c ∈ colons pieces) :
    c ∈ piece_chars := by
  fun_induction colons pieces with
  | case1 => exact absurd h List.not_mem_nil
  | case2 piece => exact mem_hexadecimal h
  | case3 piece pieces _ ih =>
      rw [List.mem_append, List.mem_cons] at h
      rcases h with hpiece | rfl | hrest
      · exact mem_hexadecimal hpiece
      · decide
      · exact ih hrest

/-- The text of an IPv6 address has hexadecimal digits and colons, compressed or not. -/
theorem mem_compressed {pieces : Pieces} {c : Char} (h : c ∈ compressed pieces) :
    c ∈ piece_chars := by
  have hmiddle : ∀ c ∈ [':', ':'], c ∈ piece_chars := by
    intro x hx
    fin_cases hx <;> decide
  unfold compressed at h
  dsimp only at h
  split at h
  · exact mem_colons h
  · rw [List.mem_append, List.mem_append] at h
    rcases h with (hbefore | hcolons) | hafter
    · exact mem_colons hbefore
    · exact hmiddle c hcolons
    · exact mem_colons hafter

/-- The text of an IPv4 address has decimal digits and dots. -/
theorem mem_dotted {a b c d : UInt8} {x : Char} (h : x ∈ dotted a b c d) :
    x ∈ '.' :: decimal_digits := by
  have hdigit : ∀ {n : ℕ}, x ∈ decimal n → x ∈ '.' :: decimal_digits := by
    have hmore : ∀ y ∈ decimal_digits, y ∈ '.' :: decimal_digits := by
      intro x hx
      fin_cases hx <;> decide
    intro n hx
    exact hmore x (mem_decimal hx)
  simp only [dotted, List.mem_append, List.mem_cons] at h
  rcases h with h | rfl | h | rfl | h | rfl | h
  · exact hdigit h
  · decide
  · exact hdigit h
  · decide
  · exact hdigit h
  · decide
  · exact hdigit h

/-- A character that delimits nothing in a URL, and is not upper case. -/
def Plain (c : Char) : Prop :=
  c ≠ '/' ∧ c ≠ '?' ∧ c ≠ '#' ∧ c ≠ '@' ∧ c.toLower = c

instance (c : Char) : Decidable (Plain c) := inferInstanceAs (Decidable (_ ∧ _))

variable {to_ascii : List Char → Option (List Char)}

/-- What delimits a part of a URL is forbidden in a domain, and a domain is in lower case. -/
theorem IsDomain.plain {text : List Char} (h : IsDomain to_ascii text) {c : Char} (hc : c ∈ text) :
    Plain c := by
  have hne : ∀ x, forbidden x = true → c ≠ x := by
    rintro x hx rfl
    rw [h.allowed c hc] at hx
    cases hx
  refine ⟨hne _ (by decide), hne _ (by decide), hne _ (by decide), hne _ (by decide), ?_⟩
  obtain ⟨n, hn, rfl⟩ := List.mem_iff_getElem.mp hc
  have hget := congrArg (fun t => t[n]?) h.lower
  rw [List.getElem?_map, List.getElem?_eq_getElem hn] at hget
  exact Option.some.inj hget

/-- A forbidden character is not in a domain. -/
theorem IsDomain.not_mem {text : List Char} (h : IsDomain to_ascii text) {x : Char}
    (hx : forbidden x = true) : x ∉ text := by
  intro hmem
  rw [h.allowed x hmem] at hx
  cases hx

/-- No host has a character that delimits a part of a URL, or an upper-case one. -/
theorem Host.plain {host : Host} (h : host.Valid to_ascii) {c : Char} (hc : c ∈ host.serialize) :
    Plain c := by
  cases host with
  | domain text => exact (h text rfl).plain hc
  | ipv4 a b c' d =>
      have hplain : ∀ x ∈ '.' :: decimal_digits, Plain x := by
        intro x hx
        fin_cases hx <;> decide
      exact hplain c (mem_dotted hc)
  | ipv6 pieces =>
      have hplain : ∀ x ∈ piece_chars, Plain x := by
        intro x hx
        fin_cases hx <;> decide
      rcases List.mem_cons.mp hc with rfl | hc
      · decide
      · rcases List.mem_append.mp hc with hinner | hlast
        · exact hplain c (mem_compressed hinner)
        · rw [List.mem_singleton.mp hlast]
          decide

/-- A host is bracketed, or it has neither a bracket nor a colon; this is how the authority can be
cut at the port. -/
theorem Host.bracketed_or_not {host : Host} (h : host.Valid to_ascii) :
    (∃ inner, ']' ∉ inner ∧ host.serialize = '[' :: (inner ++ [']']))
      ∨ ':' ∉ host.serialize ∧ '[' ∉ host.serialize := by
  cases host with
  | domain text => exact .inr ⟨(h text rfl).not_mem (by decide), (h text rfl).not_mem (by decide)⟩
  | ipv4 a b c d =>
      have hnot : ∀ x, x ∉ '.' :: decimal_digits → x ∉ dotted a b c d := fun x hx hmem =>
        hx (mem_dotted hmem)
      exact .inr ⟨hnot ':' (by decide), hnot '[' (by decide)⟩
  | ipv6 pieces =>
      refine .inl ⟨compressed pieces, fun hmem => ?_, rfl⟩
      exact absurd (mem_compressed hmem) (by decide)

/-- No host is empty. -/
theorem Host.serialize_ne_nil {host : Host} (h : host.Valid to_ascii) : host.serialize ≠ [] := by
  cases host with
  | domain text => exact (h text rfl).nonempty
  | ipv4 a b c d =>
      intro hnil
      exact decimal_ne_nil a.toNat (List.append_eq_nil_iff.mp hnil).1
  | ipv6 pieces => exact List.cons_ne_nil _ _

/-- The port has a colon and decimal digits. -/
theorem mem_port_suffix {port : Option UInt16} {c : Char} (h : c ∈ port_suffix port) : Plain c := by
  have hplain : ∀ x ∈ decimal_digits, Plain x := by
    intro x hx
    fin_cases hx <;> decide
  cases port with
  | none => exact absurd h List.not_mem_nil
  | some n =>
      rcases List.mem_cons.mp h with rfl | hdigit
      · decide
      · exact hplain c (mem_decimal hdigit)

/-- **The host of an origin is the host in its authority.** Within brackets colons do not count;
without them the first colon is that of the port. -/
theorem host_of_serialize {host : Host} (h : host.Valid to_ascii) (port : Option UInt16) :
    host_of (host.serialize ++ port_suffix port) = host.serialize := by
  rcases host.bracketed_or_not h with ⟨inner, hinner, htext⟩ | ⟨hcolon, hbracket⟩
  · have hpos : ∀ c ∈ inner, decide (c ≠ ']') = true := by
      intro c hc
      rw [decide_eq_true_eq]
      rintro rfl
      exact hinner hc
    rw [htext, List.cons_append, List.append_assoc, host_of, List.takeWhile_append_of_pos hpos]
    simp
  · have htake : (host.serialize ++ port_suffix port).takeWhile (· ≠ ':') = host.serialize := by
      have hpos : ∀ c ∈ host.serialize, decide (c ≠ ':') = true := by
        intro c hc
        rw [decide_eq_true_eq]
        rintro rfl
        exact hcolon hc
      rw [List.takeWhile_append_of_pos hpos]
      cases port with
      | none => exact List.append_nil _
      | some n => simp [port_suffix]
    rw [host_of, htake]
    -- The other case of `host_of` is a text in brackets, and this one does not begin with one.
    rintro rest heq
    have hne := host.serialize_ne_nil h
    cases hs : host.serialize with
    | nil => exact hne hs
    | cons c cs =>
        rw [hs] at heq hbracket
        cases heq
        exact hbracket List.mem_cons_self

end Web
