/-
`crates/app/src/invites.rs`: identifiers in request paths.

`path_identifier` decodes a segment by hand and checks it against the hyphenated form before
`Uuid::parse_str` sees it. What it accepts is the percent-encodings of that form, and nothing
else; every index it takes is in range, since by then the text has 36 bytes.
-/
import Fukulow.Bytes.Groups
import Fukulow.Bytes.Percent
import Fukulow.Domain

set_option autoImplicit false

namespace Fukulow

/-- `http::StatusCode`. -/
structure StatusCode where
  code : ℕ
deriving DecidableEq, Repr

def StatusCode.NOT_FOUND : StatusCode := ⟨404⟩

/-- How a handler's step ends when it does not return: with a status, or with an index out of
range, which unwinds the task. -/
inductive Stop where
  | status (status : StatusCode)
  | panicked
deriving DecidableEq, Repr

/-- `bytes[i]`. -/
def index (bytes : List UInt8) (i : ℕ) : Except Stop UInt8 :=
  match bytes[i]? with
  | some b => .ok b
  | none => .error .panicked

/-- `(b as char).to_digit(16)`. -/
def to_digit (b : UInt8) : Option ℕ := Hex.value (Char.ofUInt8 b)

/-- The loop of `path_identifier`: the bytes left, and those decoded. -/
def decode_segment : List UInt8 → List UInt8 → Except Stop (List UInt8)
  | [], decoded => .ok decoded
  | byte :: bytes, decoded =>
      if byte = '%'.toUInt8 then
        match bytes with
        | high :: low :: bytes =>
            match to_digit high, to_digit low with
            | some high, some low =>
                let decoded := decoded ++ [UInt8.ofNat (high * 16 + low)]
                if 36 < decoded.length then .error (.status .NOT_FOUND)
                else decode_segment bytes decoded
            | _, _ => .error (.status .NOT_FOUND)
        -- `bytes.next()` has run out, at the first digit or at the second.
        | _ => .error (.status .NOT_FOUND)
      else
        let decoded := decoded ++ [byte]
        if 36 < decoded.length then .error (.status .NOT_FOUND) else decode_segment bytes decoded

section Parse

variable (parse_str : Text → Option Uuid)

/-- `identifier`. The positions are looked at only where the length is 36. -/
def identifier (value : Text) : Except Stop Uuid := do
  if (Utf8.encode value).length ≠ 36 then .error (.status .NOT_FOUND)
  else
    let hyphens ← [8, 13, 18, 23].allM fun i => do
      return (← index (Utf8.encode value) i) = '-'.toUInt8
    if !hyphens then .error (.status .NOT_FOUND)
    else
      match parse_str value with
      | none => .error (.status .NOT_FOUND)
      | some u => .ok u

def path_identifier (path : Text) (segment : ℕ) : Except Stop Uuid :=
  match (path.splitOn '/')[segment]? with
  | none => .error (.status .NOT_FOUND)
  | some raw => do
      let decoded ← decode_segment (Utf8.encode raw) []
      match Utf8.decode decoded with
      | none => .error (.status .NOT_FOUND)
      | some value => identifier parse_str value

end Parse

/-! ## The hyphenated form -/

/-- Where the hyphens come: after 8 digits, and after three more groups of 4. -/
def uuid_groups : List ℕ := [8, 4, 4, 4]

/-- `u` in 32 lower-case digits, grouped. -/
def hyphenated (u : Uuid) : Text := Groups.join '-' uuid_groups (Hex.fixed 32 u)

/-- The bytes are the hyphenated form of `u`, in any mix of cases. -/
def Spells (bytes : List UInt8) (u : Uuid) : Prop :=
  u < 2 ^ 128 ∧ (bytes.map Char.ofUInt8).map Char.toLower = hyphenated u

/-- What is relied on of `Uuid::parse_str`: on 36 bytes with hyphens at 8, 13, 18 and 23 it
accepts exactly hexadecimal digits elsewhere, and reads the number they write. -/
structure ParsesHyphenated (parse_str : Text → Option Uuid) : Prop where
  parses : ∀ value, (Utf8.encode value).length = 36 →
    Groups.Separated '-'.toUInt8 uuid_groups (Utf8.encode value) →
    parse_str value
      = Hex.number ((Groups.digits uuid_groups (Utf8.encode value)).map Char.ofUInt8)

/-- 32 digits and four hyphens. -/
theorem length_hyphenated (u : Uuid) : (hyphenated u).length = 36 := by
  rw [hyphenated, Groups.length_join (by rw [Hex.length_fixed]; decide), Hex.length_fixed]
  rfl

/-- All of it is ASCII, so that bytes and characters are the same. -/
theorem ascii_hyphenated (u : Uuid) : Utf8.Ascii (hyphenated u) := by
  intro c hc
  rcases Groups.mem_join hc with rfl | hc
  · decide
  · have hcode : (48 ≤ c.toNat ∧ c.toNat ≤ 57) ∨ (97 ≤ c.toNat ∧ c.toNat ≤ 102) :=
      Hex.isLower_fixed hc
    omega

/-- A hyphen has no other case. -/
theorem toLower_eq_hyphen {b : UInt8} (h : (Char.ofUInt8 b).toLower = '-') : b = '-'.toUInt8 := by
  by_cases hupper : (Char.ofUInt8 b).isUpper
  · -- A letter's lower case is a letter.
    have halpha := congrArg Char.isLower h
    rw [Char.isLower_toLower_eq_isAlpha, Char.isAlpha, hupper, Bool.true_or] at halpha
    cases halpha
  · rw [Char.toLower_eq_of_not_isUpper hupper] at h
    rw [← h, Utf8.toUInt8_ofUInt8]

/-- What spells a uuid has its length and its hyphens. -/
theorem Spells.separated {bytes : List UInt8} {u : Uuid} (h : Spells bytes u) :
    bytes.length = 36 ∧ Groups.Separated '-'.toUInt8 uuid_groups bytes := by
  obtain ⟨-, htext⟩ := h
  have hsep : Groups.Separated '-' uuid_groups (hyphenated u) :=
    Groups.separated_join (by rw [Hex.length_fixed]; decide)
  rw [← htext, List.map_map] at hsep
  refine ⟨?_, hsep.of_map fun b hb => toLower_eq_hyphen hb⟩
  rw [← length_hyphenated u, ← htext, List.length_map, List.length_map]

/-- Separated bytes spell the number of their digits, which are 32 once the hyphens are left out.
-/
theorem spells_iff {bytes : List UInt8} {u : Uuid} (hlength : bytes.length = 36)
    (hsep : Groups.Separated '-'.toUInt8 uuid_groups bytes) :
    Hex.number ((Groups.digits uuid_groups bytes).map Char.ofUInt8) = some u ↔ Spells bytes u := by
  have hjoin := Groups.join_digits hsep
  generalize hd : Groups.digits uuid_groups bytes = d at hjoin
  have hcount : d.length = 32 := by
    have hsum := Groups.length_digits hsep
    rw [hd, hlength] at hsum
    change d.length + 4 = 36 at hsum
    omega
  have htext : (bytes.map Char.ofUInt8).map Char.toLower
      = Groups.join '-' uuid_groups ((d.map Char.ofUInt8).map Char.toLower) := by
    rw [← hjoin, Groups.map_join, Groups.map_join]
    rfl
  rw [Hex.number_eq_some, List.length_map, hcount, Spells, htext, hyphenated]
  refine and_congr Iff.rfl ?_
  constructor
  · intro h
    rw [h]
  · intro h
    have hdigits := congrArg (Groups.digits uuid_groups) h
    rwa [Groups.digits_join, Groups.digits_join] at hdigits
    · rw [Hex.length_fixed]
      decide
    · rw [List.length_map, List.length_map, hcount]
      decide

/-! ## The loop -/

/-- What the loop makes of `bytes`, behind what it has decoded: their decoding, or `NOT_FOUND`
where that has a sign left in it or is too long. -/
def Decoded (bytes decoded : List UInt8) (result : Except Stop (List UInt8)) : Prop :=
  result = .ok (decoded ++ Percent.decode bytes)
    ∨ result = .error (.status .NOT_FOUND)
      ∧ (Percent.sign ∈ Percent.decode bytes
        ∨ 36 < decoded.length + (Percent.decode bytes).length)

/-- One byte more, and the length check: the loop stops as soon as it has more than 36 bytes, and
what follows could only make it longer. -/
theorem Decoded.push {bytes bytes' decoded : List UInt8} {v : UInt8}
    {result : Except Stop (List UInt8)} (hcons : Percent.decode bytes' = v :: Percent.decode bytes)
    (h : Decoded bytes (decoded ++ [v]) result) :
    Decoded bytes' decoded
      (if 36 < (decoded ++ [v]).length then .error (.status .NOT_FOUND) else result) := by
  unfold Decoded
  rw [hcons]
  by_cases hlong : 36 < (decoded ++ [v]).length
  · rw [if_pos hlong]
    refine .inr ⟨rfl, .inr ?_⟩
    rw [List.length_append, List.length_singleton] at hlong
    rw [List.length_cons]
    omega
  · rw [if_neg hlong]
    rcases h with hok | ⟨herror, hrest⟩
    · rw [List.append_assoc, List.singleton_append] at hok
      exact .inl hok
    · refine .inr ⟨herror, hrest.imp (List.mem_cons_of_mem _) fun hlength => ?_⟩
      rw [List.length_append, List.length_singleton] at hlength
      rw [List.length_cons]
      omega

section Steps

variable {b high low v : UInt8} {bytes decoded : List UInt8}

/-- A byte that is no sign is taken as it is. -/
theorem decode_segment_plain (hb : b ≠ '%'.toUInt8) : decode_segment (b :: bytes) decoded
    = if 36 < (decoded ++ [b]).length then .error (.status .NOT_FOUND)
      else decode_segment bytes (decoded ++ [b]) := by
  rw [decode_segment.eq_def]
  exact if_neg hb

/-- A sign with two digits is taken as their byte. -/
theorem decode_segment_escaped (h : Percent.escaped high low = some v) :
    decode_segment ('%'.toUInt8 :: high :: low :: bytes) decoded
      = if 36 < (decoded ++ [v]).length then .error (.status .NOT_FOUND)
        else decode_segment bytes (decoded ++ [v]) := by
  rw [decode_segment, if_pos rfl, to_digit, to_digit]
  unfold Percent.escaped at h
  cases hhigh : Hex.value (Char.ofUInt8 high) with
  | none =>
      rw [hhigh] at h
      cases h
  | some d =>
      rw [hhigh] at h
      cases hlow : Hex.value (Char.ofUInt8 low) with
      | none =>
          rw [hlow] at h
          cases h
      | some d' =>
          rw [hlow] at h
          cases h
          rfl

/-- A sign without them ends the loop. -/
theorem decode_segment_stray (h : Percent.escaped high low = none) :
    decode_segment ('%'.toUInt8 :: high :: low :: bytes) decoded = .error (.status .NOT_FOUND) := by
  rw [decode_segment, if_pos rfl, to_digit, to_digit]
  unfold Percent.escaped at h
  cases hhigh : Hex.value (Char.ofUInt8 high) with
  | none => rfl
  | some d =>
      rw [hhigh] at h
      cases hlow : Hex.value (Char.ofUInt8 low) with
      | none => rfl
      | some d' =>
          rw [hlow] at h
          cases h

end Steps

/-- The loop decodes its segment, or refuses it. The induction follows the loop: an escape takes
three bytes, anything else one. -/
theorem decode_segment_decoded (bytes decoded : List UInt8) :
    Decoded bytes decoded (decode_segment bytes decoded) := by
  -- A step takes one byte or three, so the induction is on how many are left.
  induction hn : bytes.length using Nat.strong_induction_on generalizing bytes decoded with
  | _ n ih =>
    subst hn
    rcases bytes with _ | ⟨b, bytes⟩
    · refine .inl ?_
      rw [Percent.decode, List.append_nil]
      rfl
    by_cases hb : b = '%'.toUInt8
    case neg =>
      rw [decode_segment_plain hb]
      exact (ih bytes.length (Nat.lt_succ_self _) bytes _ rfl).push (Percent.decode_plain hb)
    subst hb
    rcases bytes with _ | ⟨high, _ | ⟨low, bytes⟩⟩
    · exact .inr ⟨rfl, .inl List.mem_cons_self⟩
    · exact .inr ⟨rfl, .inl List.mem_cons_self⟩
    · cases hv : Percent.escaped high low with
      | none =>
          rw [decode_segment_stray hv]
          refine .inr ⟨rfl, .inl ?_⟩
          exact (Percent.decode_stray hv) ▸ List.mem_cons_self
      | some v =>
          rw [decode_segment_escaped hv]
          refine (ih bytes.length ?_ bytes _ rfl).push (Percent.decode_escaped hv)
          rw [List.length_cons, List.length_cons, List.length_cons]
          omega

/-! ## Identifiers -/

section Parse

variable {parse_str : Text → Option Uuid} {value : Text} {u : Uuid}

/-- Checks that do not fail are a conjunction. -/
theorem allM_ok {τ ε : Type} {p : τ → Except ε Bool} {q : τ → Bool} {xs : List τ}
    (h : ∀ x ∈ xs, p x = .ok (q x)) : xs.allM p = .ok (xs.all q) := by
  induction xs with
  | nil => rfl
  | cons x xs ih =>
      obtain ⟨hx, hxs⟩ := List.forall_mem_cons.mp h
      rw [List.allM, hx, List.all_cons]
      cases q x with
      | true => exact ih hxs
      | false => rfl

/-- The hyphens are looked up within 36 bytes, so no index is out of range. -/
theorem hyphens_eq {bytes : List UInt8} (h : bytes.length = 36) :
    ([8, 13, 18, 23].allM fun i => do return (← index bytes i) = '-'.toUInt8 : Except Stop Bool)
      = .ok (decide (Groups.Separated '-'.toUInt8 uuid_groups bytes)) := by
  have hindex : ∀ i ∈ [8, 13, 18, 23], (do return (← index bytes i) = '-'.toUInt8 : Except Stop Bool)
      = .ok (decide (bytes[i]? = some '-'.toUInt8)) := by
    intro i hi
    have hlt : i < bytes.length := by
      have hall : ∀ j ∈ [8, 13, 18, 23], j < 36 := by decide
      have := hall i hi
      omega
    have hdecide : decide (bytes[i]? = some '-'.toUInt8) = decide (bytes[i] = '-'.toUInt8) := by
      rw [decide_eq_decide, List.getElem?_eq_getElem hlt, Option.some.injEq]
    rw [hdecide, index, List.getElem?_eq_getElem hlt]
    rfl
  rw [allM_ok hindex]
  refine congrArg Except.ok (Bool.eq_iff_iff.mpr ?_)
  simp only [List.all_cons, List.all_nil, Bool.and_eq_true, decide_eq_true_eq, uuid_groups,
    Groups.Separated, List.drop_drop, List.getElem?_drop, and_true]

/-- `identifier` on the right number of bytes: the hyphens, and then the parser. -/
theorem identifier_of_length (hlength : (Utf8.encode value).length = 36) :
    identifier parse_str value
      = if Groups.Separated '-'.toUInt8 uuid_groups (Utf8.encode value) then
          match parse_str value with
          | none => .error (.status .NOT_FOUND)
          | some u => .ok u
        else .error (.status .NOT_FOUND) := by
  rw [identifier, if_neg (not_not.mpr hlength), hyphens_eq hlength]
  by_cases hsep : Groups.Separated '-'.toUInt8 uuid_groups (Utf8.encode value)
  · rw [if_pos hsep, decide_eq_true hsep]
    rfl
  · rw [if_neg hsep, decide_eq_false hsep]
    rfl

/-- **`identifier`** reads what spells a uuid, and refuses everything else; it never panics. -/
theorem identifier_cases (h : ParsesHyphenated parse_str) :
    (∃ u, Spells (Utf8.encode value) u ∧ identifier parse_str value = .ok u)
      ∨ (∀ u, ¬ Spells (Utf8.encode value) u)
        ∧ identifier parse_str value = .error (.status .NOT_FOUND) := by
  by_cases hlength : (Utf8.encode value).length = 36
  case neg =>
    refine .inr ⟨fun u hu => hlength hu.separated.1, ?_⟩
    rw [identifier, if_pos hlength]
  rw [identifier_of_length hlength]
  by_cases hsep : Groups.Separated '-'.toUInt8 uuid_groups (Utf8.encode value)
  case neg => exact .inr ⟨fun u hu => hsep hu.separated.2, if_neg hsep⟩
  rw [if_pos hsep, h.parses value hlength hsep]
  cases hu : Hex.number ((Groups.digits uuid_groups (Utf8.encode value)).map Char.ofUInt8) with
  | none =>
      refine .inr ⟨fun u hspells => ?_, rfl⟩
      cases hu.symm.trans ((spells_iff hlength hsep).mpr hspells)
  | some u => exact .inl ⟨u, (spells_iff hlength hsep).mp hu, rfl⟩

/-- Bytes spell at most one uuid, whose digits they are. -/
theorem Spells.unique {bytes : List UInt8} {u' : Uuid} (h : Spells bytes u) (h' : Spells bytes u') :
    u = u' := by
  obtain ⟨hlength, hsep⟩ := h.separated
  rw [← spells_iff hlength hsep] at h h'
  exact Option.some.inj (h.symm.trans h')

/-- They are ASCII. -/
theorem Spells.ascii {bytes : List UInt8} (h : Spells bytes u) : ∀ b ∈ bytes, b.toNat < 128 := by
  intro b hb
  have hc := ascii_hyphenated u (Char.ofUInt8 b).toLower
    (h.2 ▸ List.mem_map_of_mem (List.mem_map_of_mem hb))
  rwa [Percent.ascii_toLower, Utf8.toNat_ofUInt8] at hc

/-- No percent sign is left in them, so a decoding that spells a uuid was complete. -/
theorem Spells.no_sign {bytes : List UInt8} (h : Spells bytes u) : Percent.sign ∉ bytes := by
  intro hmem
  have hc : (Char.ofUInt8 Percent.sign).toLower ∈ hyphenated u :=
    h.2 ▸ List.mem_map_of_mem (List.mem_map_of_mem hmem)
  rcases Groups.mem_join hc with heq | hdigit
  · revert heq
    decide
  · have hlower := Hex.isLower_fixed hdigit
    revert hlower
    decide

section Segment

variable {path raw : Text} {k : ℕ}

/-- A segment that does not decode is not found. -/
theorem path_identifier_refused (hraw : (path.splitOn '/')[k]? = some raw) {e : Stop}
    (h : decode_segment (Utf8.encode raw) [] = .error e) :
    path_identifier parse_str path k = .error e := by
  rw [path_identifier, hraw]
  simp only [h]
  rfl

/-- One that does is looked at as text. -/
theorem path_identifier_decoded (hraw : (path.splitOn '/')[k]? = some raw) {decoded : List UInt8}
    (h : decode_segment (Utf8.encode raw) [] = .ok decoded) :
    path_identifier parse_str path k
      = (Utf8.decode decoded).elim (.error (.status .NOT_FOUND)) (identifier parse_str) := by
  rw [path_identifier, hraw]
  simp only [h, bind, Except.bind]
  cases Utf8.decode decoded with
  | none => rfl
  | some value => rfl

/-- One segment: its decoding spells a uuid, and this is read, or it is not found. Bytes that are
no text, or not of the right length, spell none. -/
theorem segment_cases (h : ParsesHyphenated parse_str)
    (hraw : (path.splitOn '/')[k]? = some raw) :
    (∃ u, Spells (Percent.decode (Utf8.encode raw)) u ∧ path_identifier parse_str path k = .ok u)
      ∨ (∀ u, ¬ Spells (Percent.decode (Utf8.encode raw)) u)
        ∧ path_identifier parse_str path k = .error (.status .NOT_FOUND) := by
  generalize hbytes : Percent.decode (Utf8.encode raw) = bytes
  have hloop := decode_segment_decoded (Utf8.encode raw) []
  rw [Decoded, hbytes, List.nil_append] at hloop
  rcases hloop with hok | ⟨herror, hwhy⟩
  · rw [path_identifier_decoded hraw hok]
    cases hvalue : Utf8.decode bytes with
    | none =>
        -- What spells a uuid is ASCII, so it is UTF-8.
        refine .inr ⟨fun u hu => ?_, rfl⟩
        cases hvalue.symm.trans (Utf8.decode_ascii hu.ascii)
    | some value =>
        rw [← Utf8.decode_eq_some.mp hvalue]
        exact identifier_cases h
  · refine .inr ⟨fun u hu => ?_, path_identifier_refused hraw herror⟩
    rcases hwhy with hsign | hlong
    · exact hu.no_sign hsign
    · rw [hu.separated.1] at hlong
      exact absurd hlong (by decide)

/-- A segment that is not there is not found. -/
theorem path_identifier_missing (hraw : (path.splitOn '/')[k]? = none) :
    path_identifier parse_str path k = .error (.status .NOT_FOUND) := by
  rw [path_identifier, hraw]

end Segment

/-- What spells the hyphenated form of a uuid, in a segment, decodes to bytes that spell it. -/
theorem spells_of_spelling {s : Text} (hu : u < 2 ^ 128)
    (h : Percent.Spelling (hyphenated u) s) : Spells (Percent.decode (Utf8.encode s)) u := by
  have hascii := ascii_hyphenated u
  refine ⟨hu, ?_⟩
  rw [Utf8.encode_ascii (h.ascii hascii)]
  exact Percent.decode_spelling h hascii

/-- No spelling has a slash in it, so it is one segment of a path. -/
theorem spelling_no_slash {s : Text} (h : Percent.Spelling (hyphenated u) s) : '/' ∉ s := by
  intro hmem
  rcases h.mem hmem with heq | ⟨n, hn⟩ | hc
  · revert heq
    decide
  · have hnone : Hex.value '/' = none := by decide
    cases hnone.symm.trans hn
  · rcases Groups.mem_join hc with heq | hdigit
    · revert heq
      decide
    · have hlower := Hex.isLower_fixed hdigit
      revert hlower
      decide

/-- **Path identifiers.** A segment is read as `u` exactly if it is there and its percent-decoding
is the hyphenated form of `u`, in any mix of cases; otherwise the answer is `NOT_FOUND`, and in no
case an index is out of range. So every way to write a uuid in a segment, each letter in either
case and each character plainly or escaped, is read as that uuid. -/
theorem path_identifier_exact (h : ParsesHyphenated parse_str) :
    (∀ path k u, path_identifier parse_str path k = .ok u ↔ ∃ raw,
      (path.splitOn '/')[k]? = some raw ∧ Spells (Percent.decode (Utf8.encode raw)) u)
    ∧ (∀ path k, (∃ u, path_identifier parse_str path k = .ok u)
      ∨ path_identifier parse_str path k = .error (.status .NOT_FOUND))
    ∧ ∀ u < 2 ^ 128, ∀ before s after, Percent.Spelling (hyphenated u) s →
      (∀ segment ∈ before ++ after, '/' ∉ segment) →
      path_identifier parse_str (['/'].intercalate (before ++ s :: after)) before.length = .ok u := by
  have hexact : ∀ path k u, path_identifier parse_str path k = .ok u ↔ ∃ raw,
      (path.splitOn '/')[k]? = some raw ∧ Spells (Percent.decode (Utf8.encode raw)) u := by
    intro path k u
    cases hraw : (path.splitOn '/')[k]? with
    | none =>
        rw [path_identifier_missing hraw]
        constructor
        · rintro ⟨⟩
        · rintro ⟨raw, ⟨⟩, -⟩
    | some raw =>
        rcases segment_cases h hraw with ⟨u', hu', hok⟩ | ⟨hnot, herror⟩
        · rw [hok]
          constructor
          · rintro ⟨⟩
            exact ⟨raw, rfl, hu'⟩
          · rintro ⟨raw', ⟨⟩, hu⟩
            rw [hu'.unique hu]
        · rw [herror]
          constructor
          · rintro ⟨⟩
          · rintro ⟨raw', ⟨⟩, hu⟩
            exact absurd hu (hnot u)
  refine ⟨hexact, ?_, ?_⟩
  · intro path k
    cases hraw : (path.splitOn '/')[k]? with
    | none => exact .inr (path_identifier_missing hraw)
    | some raw =>
        rcases segment_cases h hraw with ⟨u, -, hok⟩ | ⟨-, herror⟩
        · exact .inl ⟨u, hok⟩
        · exact .inr herror
  · intro u hu before s after hspelling hsegments
    refine (hexact _ _ u).mpr ⟨s, ?_, spells_of_spelling hu hspelling⟩
    -- No segment has a slash, so the path is split where it was put together.
    have hall : ∀ segment ∈ before ++ s :: after, '/' ∉ segment := by
      intro segment hmem
      rw [List.mem_append, List.mem_cons] at hmem
      rcases hmem with hmem | rfl | hmem
      · exact hsegments segment (List.mem_append_left _ hmem)
      · exact spelling_no_slash hspelling
      · exact hsegments segment (List.mem_append_right _ hmem)
    rw [List.splitOn_intercalate _ hall (by simp), List.getElem?_append_right (le_refl _),
      Nat.sub_self]
    rfl

end Parse

/-- `Uuid::parse_str` on texts of 36 bytes. -/
def parse_hyphenated (value : Text) : Option Uuid :=
  if (Utf8.encode value).length = 36
      ∧ Groups.Separated '-'.toUInt8 uuid_groups (Utf8.encode value) then
    Hex.number ((Groups.digits uuid_groups (Utf8.encode value)).map Char.ofUInt8)
  else none

/-- A segment in upper case, its first digit escaped. -/
theorem path_identifier_exact_escaped :
    path_identifier parse_hyphenated
      "/o/%3019A0000-0000-7000-8000-0000000000AF/i".toList 2
      = .ok 0x019a00000000700080000000000000af := by
  have hparses : ParsesHyphenated parse_hyphenated :=
    ⟨fun value hlength hsep => if_pos ⟨hlength, hsep⟩⟩
  refine (path_identifier_exact hparses).2.2 _ (by decide) [[], ['o']]
    "%3019A0000-0000-7000-8000-0000000000AF".toList [['i']] ?_ (by decide)
  have hform : hyphenated 0x019a00000000700080000000000000af
      = '0' :: (hyphenated 0x019a00000000700080000000000000af).tail := by
    decide
  rw [hform]
  exact .escaped (d := '0') rfl (by decide) (by decide) (.of_plain (by decide) (by decide))

end Fukulow
