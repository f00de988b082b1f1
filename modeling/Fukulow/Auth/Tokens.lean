/-
`crates/db/src/context.rs` and `crates/auth/src/lib.rs`: token hashes and tokens.

A stored hash and a plaintext token are both 32 bytes in hexadecimal, but each crate has an
encoder of its own, and `from_hex` is a third description of the strings, as a predicate on the
bytes of a `String`. They are the same strings: `from_bytes` is a bijection from 32 bytes to what
`from_hex` accepts (`token_hash_bijection`), so two credentials never share a key, and every
stored key can be presented.
-/
import Fukulow.Bytes.Hex
import Fukulow.Bytes.Utf8
import Fukulow.Domain

set_option autoImplicit false

namespace Fukulow

/-! ## `context.rs` -/

/-- The high nibble is an index into the digits. -/
theorem high_lt (byte : UInt8) : (byte >>> 4).toNat < 16 := by
  rw [UInt8.toNat_shiftRight]
  have := byte.toNat_lt
  change byte.toNat >>> 4 < 16
  rw [Nat.shiftRight_eq_div_pow]
  omega

/-- So is the low one. -/
theorem low_lt (byte : UInt8) : (byte &&& 15).toNat < 16 := by
  rw [UInt8.toNat_and]
  exact Nat.lt_succ_of_le Nat.and_le_right

/-- `const DIGITS: &[u8; 16]`, whose bytes are pushed as characters. -/
def TokenHash.DIGITS : Vector Char 16 :=
  #v['0', '1', '2', '3', '4', '5', '6', '7', '8', '9', 'a', 'b', 'c', 'd', 'e', 'f']

/-- The digits that `from_bytes` pushes. -/
def TokenHash.pushed (bytes : Vector UInt8 32) : Text :=
  bytes.toList.flatMap fun byte : UInt8 =>
    [DIGITS.get ⟨(byte >>> 4).toNat, high_lt byte⟩, DIGITS.get ⟨(byte &&& 15).toNat, low_lt byte⟩]

/-- The table of the source holds the digits in their order. -/
theorem digits_get (n : ℕ) (hn : n < 16) : TokenHash.DIGITS.get ⟨n, hn⟩ = Hex.digit n := by
  have hall : ∀ i : Fin 16, TokenHash.DIGITS.get i = Hex.digit i := by decide
  exact hall ⟨n, hn⟩

/-- The two nibbles of a byte are its two digits. -/
theorem fixed_byte (byte : UInt8) :
    Hex.fixed 2 byte.toNat = [Hex.digit (byte >>> 4).toNat, Hex.digit (byte &&& 15).toNat] := by
  have hlt := byte.toNat_lt
  have hhigh : (byte >>> 4).toNat = byte.toNat / 16 % 16 := by
    rw [UInt8.toNat_shiftRight]
    change byte.toNat >>> 4 = _
    rw [Nat.shiftRight_eq_div_pow]
    omega
  have hlow : (byte &&& 15).toNat = byte.toNat % 16 := by
    rw [UInt8.toNat_and]
    exact Nat.and_two_pow_sub_one_eq_mod byte.toNat 4
  rw [hhigh, hlow]
  rfl

/-- What `from_bytes` pushes is the encoding of the bytes. -/
theorem TokenHash.pushed_eq (bytes : Vector UInt8 32) :
    TokenHash.pushed bytes = Hex.encode bytes.toList := by
  refine List.flatMap_congr fun byte _ => ?_
  rw [fixed_byte]
  exact congrArg₂ (fun c d => [c, d]) (digits_get _ _) (digits_get _ _)

/-- Two digits for each of the 32 bytes. -/
theorem TokenHash.pushed_length (bytes : Vector UInt8 32) :
    (TokenHash.pushed bytes).length = 64 := by
  rw [pushed_eq, Hex.length_encode, Vector.length_toList]

/-- All of them lower-case digits. -/
theorem TokenHash.pushed_lower (bytes : Vector UInt8 32) :
    ∀ c ∈ TokenHash.pushed bytes, Hex.IsLower c := by
  intro c hc
  rw [pushed_eq] at hc
  exact Hex.isLower_encode hc

def TokenHash.from_bytes (bytes : Vector UInt8 32) : TokenHash where
  as_str := pushed bytes
  length_eq := pushed_length bytes
  lower := pushed_lower bytes

inductive InvalidTokenHash where
  | invalidTokenHash
deriving DecidableEq, Repr

/-- `u8::is_ascii_digit`. -/
def is_ascii_digit (c : UInt8) : Bool := '0'.toUInt8 ≤ c && c ≤ '9'.toUInt8

/-- The test of `from_hex`. A `String` is measured and read by its bytes. -/
def TokenHash.is_hex (value : Text) : Bool :=
  (Utf8.encode value).length = 64 && (Utf8.encode value).all fun c =>
    is_ascii_digit c || ('a'.toUInt8 ≤ c && c ≤ 'f'.toUInt8)

/-- What `from_hex` asks of a byte, in its codes. -/
theorem hex_byte_iff (b : UInt8) :
    (is_ascii_digit b || ('a'.toUInt8 ≤ b && b ≤ 'f'.toUInt8)) = true
      ↔ (48 ≤ b.toNat ∧ b.toNat ≤ 57) ∨ (97 ≤ b.toNat ∧ b.toNat ≤ 102) := by
  rw [is_ascii_digit, Bool.or_eq_true, Bool.and_eq_true, Bool.and_eq_true, decide_eq_true_eq,
    decide_eq_true_eq, decide_eq_true_eq, decide_eq_true_eq]
  simp only [UInt8.le_iff_toNat_le]
  exact Iff.rfl

/-- On ASCII it asks the same of the character. -/
theorem hex_char_iff {c : Char} (hc : c.toNat < 128) :
    (is_ascii_digit c.toUInt8 || ('a'.toUInt8 ≤ c.toUInt8 && c.toUInt8 ≤ 'f'.toUInt8)) = true
      ↔ Hex.IsLower c := by
  have hcode : c.toUInt8.toNat = c.toNat := by
    change c.val.toUInt8.toNat = c.val.toNat
    rw [UInt32.toNat_toUInt8]
    change c.val.toNat < 128 at hc
    omega
  rw [hex_byte_iff, hcode]
  exact Iff.rfl

/-- Lower-case digits are ASCII. -/
theorem ascii_of_lower {s : Text} (h : ∀ c ∈ s, Hex.IsLower c) : Utf8.Ascii s := by
  intro c hc
  have hcode : (48 ≤ c.toNat ∧ c.toNat ≤ 57) ∨ (97 ≤ c.toNat ∧ c.toNat ≤ 102) := h c hc
  omega

/-- The test of `from_hex` is on bytes, and a byte that passes is a whole character: the strings
that pass are 64 lower-case digits. -/
theorem TokenHash.is_hex_iff {s : Text} :
    TokenHash.is_hex s = true ↔ s.length = 64 ∧ ∀ c ∈ s, Hex.IsLower c := by
  rw [TokenHash.is_hex, Bool.and_eq_true, decide_eq_true_eq, List.all_eq_true]
  constructor
  · rintro ⟨hlength, hall⟩
    -- Bytes that pass are ASCII, so bytes and characters are the same here.
    have hascii : Utf8.Ascii s := by
      refine Utf8.ascii_of_bytes fun b hb => ?_
      have hbyte := (hex_byte_iff b).mp (hall b hb)
      omega
    rw [Utf8.encode_ascii hascii] at hlength hall
    rw [List.length_map] at hlength
    refine ⟨hlength, fun c hc => ?_⟩
    exact (hex_char_iff (hascii c hc)).mp (hall _ (List.mem_map_of_mem hc))
  · rintro ⟨hlength, hlower⟩
    have hascii := ascii_of_lower hlower
    rw [Utf8.encode_ascii hascii, List.length_map]
    refine ⟨hlength, fun b hb => ?_⟩
    obtain ⟨c, hc, rfl⟩ := List.mem_map.mp hb
    exact (hex_char_iff (hascii c hc)).mpr (hlower c hc)

def TokenHash.from_hex (value : Text) : Except InvalidTokenHash TokenHash :=
  if h : TokenHash.is_hex value = true then
    .ok ⟨value, (TokenHash.is_hex_iff.mp h).1, (TokenHash.is_hex_iff.mp h).2⟩
  else .error .invalidTokenHash

/-! ## `auth/src/lib.rs` -/

inductive TokenError where
  | tokenError
deriving DecidableEq, Repr

/-- `const DIGITS` of `hex`. -/
def HEX_DIGITS : Vector Char 16 :=
  #v['0', '1', '2', '3', '4', '5', '6', '7', '8', '9', 'a', 'b', 'c', 'd', 'e', 'f']

def hex (bytes : List UInt8) : Text :=
  bytes.flatMap fun byte : UInt8 =>
    [HEX_DIGITS.get ⟨(byte >>> 4).toNat, high_lt byte⟩,
      HEX_DIGITS.get ⟨(byte &&& 15).toNat, low_lt byte⟩]

/-- `fill` overwrites the buffer it is given, or fails. -/
def random_token {ε : Type} (fill : Vector UInt8 32 → Except ε (Vector UInt8 32)) :
    Except TokenError Text := do
  let bytes ← (fill (Vector.replicate 32 0)).mapError fun _ => .tokenError
  return hex bytes.toList

/-- `hash_token`, for the digest function `sha256`. -/
def hash_token (sha256 : List UInt8 → Vector UInt8 32) (token : Text) : TokenHash :=
  .from_bytes (sha256 (Utf8.encode token))

/-! ## One encoding -/

/-- The encoder of plaintext tokens is the same encoding, from a table of its own. -/
theorem hex_eq (bytes : List UInt8) : hex bytes = Hex.encode bytes := by
  refine List.flatMap_congr fun byte _ => ?_
  rw [fixed_byte]
  exact congrArg₂ (fun c d => [c, d]) (digits_get _ _) (digits_get _ _)

/-- The text of a key made from bytes is their encoding. -/
theorem from_bytes_as_str (b : Vector UInt8 32) :
    (TokenHash.from_bytes b).as_str = Hex.encode b.toList := TokenHash.pushed_eq b

/-- A key is known by its text; the other fields are facts about it. -/
theorem TokenHash.as_str_injective : Function.Injective TokenHash.as_str :=
  fun _ _ => TokenHash.ext_text

/-- Different bytes make different keys, as they are written differently. -/
theorem from_bytes_injective : Function.Injective TokenHash.from_bytes := by
  intro b c h
  have htext := congrArg TokenHash.as_str h
  rw [from_bytes_as_str, from_bytes_as_str] at htext
  exact Vector.toList_inj.mp (Hex.encode_injective htext)

/-- Two tokens share a key exactly if they have one digest; the encoding of the digest adds no
collision. -/
theorem hash_token_eq_iff {sha256 : List UInt8 → Vector UInt8 32} {s t : Text} :
    hash_token sha256 s = hash_token sha256 t ↔
      sha256 (Utf8.encode s) = sha256 (Utf8.encode t) :=
  from_bytes_injective.eq_iff

/-! ## What is accepted -/

/-- **`from_hex`** accepts 64 lower-case digits, and keeps them. -/
theorem from_hex_ok {s : Text} {h : TokenHash} : TokenHash.from_hex s = .ok h ↔ h.as_str = s := by
  unfold TokenHash.from_hex
  constructor
  · intro hok
    split at hok
    case isTrue hcheck => exact congrArg TokenHash.as_str (Except.ok.inj hok).symm
    case isFalse => cases hok
  · rintro rfl
    rw [dif_pos (TokenHash.is_hex_iff.mpr ⟨h.length_eq, h.lower⟩)]

/-- Does `from_hex` accept `s`? Every key is the encoding of some 32 bytes, so what can be read is
what can be written. -/
theorem accepted_iff {s : Text} : (∃ h, TokenHash.from_hex s = .ok h) ↔
    ∃ b, s = (TokenHash.from_bytes b).as_str := by
  constructor
  · rintro ⟨h, hok⟩
    obtain ⟨bs, hbs, htext⟩ := Hex.encode_surjective (k := 32) h.length_eq h.lower
    refine ⟨⟨bs.toArray, hbs⟩, ?_⟩
    rw [← from_hex_ok.mp hok, ← htext, from_bytes_as_str]
    rfl
  · rintro ⟨b, rfl⟩
    exact ⟨TokenHash.from_bytes b, from_hex_ok.mpr rfl⟩

/-- The bytes that `random_token` draws. -/
def drawn {ε : Type} (fill : Vector UInt8 32 → Except ε (Vector UInt8 32)) :
    Except TokenError (Vector UInt8 32) :=
  (fill (Vector.replicate 32 0)).mapError fun _ => .tokenError

/-- A token is the encoding of the bytes drawn, or the error that nothing could be drawn. -/
theorem random_token_eq {ε : Type} (fill : Vector UInt8 32 → Except ε (Vector UInt8 32)) :
    random_token fill = (drawn fill).map fun b => (TokenHash.from_bytes b).as_str := by
  rw [random_token, drawn]
  cases fill (Vector.replicate 32 0) with
  | error e => rfl
  | ok b =>
      change Except.ok (hex b.toList) = Except.ok (TokenHash.from_bytes b).as_str
      rw [hex_eq, from_bytes_as_str]

/-- **One bijection.** `from_bytes` writes 64 lower-case hexadecimal digits, which `from_hex`
reads back to the same value; no two byte strings share one, and `from_hex` accepts nothing
else. The encoder of plaintext tokens is the same function, so a token says which bytes were
drawn. -/
theorem token_hash_bijection {ε : Type} :
    (∀ b : Vector UInt8 32, (TokenHash.from_bytes b).as_str.length = 64
      ∧ (∀ c ∈ (TokenHash.from_bytes b).as_str, ('0' ≤ c ∧ c ≤ '9') ∨ ('a' ≤ c ∧ c ≤ 'f'))
      ∧ TokenHash.from_hex (TokenHash.from_bytes b).as_str = .ok (TokenHash.from_bytes b))
    ∧ Function.Injective TokenHash.from_bytes
    ∧ (∀ s : Text, (∃ h, TokenHash.from_hex s = .ok h) ↔
      ∃! b : Vector UInt8 32, s = (TokenHash.from_bytes b).as_str)
    ∧ (∀ b : Vector UInt8 32, hex b.toList = (TokenHash.from_bytes b).as_str)
    ∧ ∀ fill fill' : Vector UInt8 32 → Except ε (Vector UInt8 32),
      random_token fill = random_token fill' ↔ drawn fill = drawn fill' := by
  have hinj : Function.Injective fun b : Vector UInt8 32 => (TokenHash.from_bytes b).as_str :=
    TokenHash.as_str_injective.comp from_bytes_injective
  refine ⟨?_, from_bytes_injective, ?_, ?_, ?_⟩
  · intro b
    exact ⟨TokenHash.pushed_length b, TokenHash.pushed_lower b, from_hex_ok.mpr rfl⟩
  · intro s
    rw [accepted_iff]
    constructor
    · rintro ⟨b, rfl⟩
      exact ⟨b, rfl, fun c hc => (hinj hc).symm⟩
    · rintro ⟨b, hb, -⟩
      exact ⟨b, hb⟩
  · intro b
    rw [hex_eq, from_bytes_as_str]
  · intro fill fill'
    rw [random_token_eq, random_token_eq]
    constructor
    · intro h
      cases hf : drawn fill with
      | error e =>
          cases hf' : drawn fill' with
          | error e' => rfl
          | ok b' =>
              rw [hf, hf'] at h
              cases h
      | ok b =>
          cases hf' : drawn fill' with
          | error e' =>
              rw [hf, hf'] at h
              cases h
          | ok b' =>
              rw [hf, hf'] at h
              rw [hinj (Except.ok.inj h)]
    · intro h
      rw [h]

end Fukulow
