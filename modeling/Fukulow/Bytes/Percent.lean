/-
Percent-encoding.

`decode` turns every `%` with two hexadecimal digits after it into one byte and takes every other
byte as it is. `Spelling t s` says that `s` writes the text `t` with each letter in either case
and each character either plainly or escaped; what is written so decodes to `t`, up to case
(`decode_spelling`).
-/
import Fukulow.Bytes.Hex
import Fukulow.Bytes.Utf8

set_option autoImplicit false

namespace Percent

/-- `%`. -/
def sign : UInt8 := '%'.toUInt8

/-- The byte that two hexadecimal digits name. -/
def escaped (high low : UInt8) : Option UInt8 :=
  match Hex.value (Char.ofUInt8 high), Hex.value (Char.ofUInt8 low) with
  | some h, some l => some (UInt8.ofNat (h * 16 + l))
  | _, _ => none

def decode : List UInt8 → List UInt8
  | [] => []
  | [b] => [b]
  | [b, c] => [b, c]
  | b :: high :: low :: rest =>
      if b = sign then
        match escaped high low with
        | some v => v :: decode rest
        | none => b :: decode (high :: low :: rest)
      else b :: decode (high :: low :: rest)

variable {b high low v : UInt8} {bytes rest : List UInt8}

/-- A byte that is no sign is itself. -/
theorem decode_plain (h : b ≠ sign) : decode (b :: bytes) = b :: decode bytes := by
  rcases bytes with _ | ⟨c, _ | ⟨d, rest⟩⟩
  · rfl
  · rfl
  · rw [decode, if_neg h]

/-- An escape is one byte. -/
theorem decode_escaped (h : escaped high low = some v) :
    decode (sign :: high :: low :: rest) = v :: decode rest := by
  rw [decode, if_pos rfl, h]

/-- A sign that is no escape stays. -/
theorem decode_stray (h : escaped high low = none) :
    decode (sign :: high :: low :: rest) = sign :: decode (high :: low :: rest) := by
  rw [decode, if_pos rfl, h]

/-! ## Writing -/

/-- `s` writes `t`: each character in either case, plainly or escaped. -/
inductive Spelling : List Char → List Char → Prop where
  | nil : Spelling [] []
  | plain {c d : Char} {t s : List Char} : d.toLower = c → d ≠ '%' → Spelling t s →
      Spelling (c :: t) (d :: s)
  | escaped {c d high low : Char} {t s : List Char} : d.toLower = c →
      Hex.value high = some (d.toNat / 16) → Hex.value low = some (d.toNat % 16) →
      Spelling t s → Spelling (c :: t) ('%' :: high :: low :: s)

variable {t s : List Char}

/-- Case is a matter of ASCII letters. -/
theorem ascii_toLower (c : Char) : c.toLower.toNat < 128 ↔ c.toNat < 128 := by
  by_cases hc : c.isUpper
  · have hcode : 65 ≤ c.toNat ∧ c.toNat ≤ 90 := by
      rw [Char.isUpper] at hc
      exact of_decide_eq_true hc
    have hvalid : (c.toNat + 32).isValidChar := .inl (by omega)
    rw [Char.toLower_eq_of_isUpper hc, Char.toNat_ofNat, if_pos hvalid]
    omega
  · rw [Char.toLower_eq_of_not_isUpper hc]

/-- Digits are ASCII. -/
theorem ascii_of_value {c : Char} {n : ℕ} (h : Hex.value c = some n) : c.toNat < 128 := by
  obtain ⟨hn, hc⟩ := Hex.value_eq_some.mp h
  rw [← ascii_toLower, hc]
  have hall : ∀ i < 16, (Hex.digit i).toNat < 128 := by decide
  exact hall n hn

/-- A spelling of an ASCII text is ASCII: it adds only signs and digits. -/
theorem Spelling.ascii (h : Spelling t s) (ht : Utf8.Ascii t) : Utf8.Ascii s := by
  induction h with
  | nil => exact ht
  | plain hd _ _ ih =>
      obtain ⟨hc, ht⟩ := List.forall_mem_cons.mp ht
      refine List.forall_mem_cons.mpr ⟨?_, ih ht⟩
      rw [← ascii_toLower, hd]
      exact hc
  | escaped hd hhigh hlow _ ih =>
      obtain ⟨hc, ht⟩ := List.forall_mem_cons.mp ht
      rw [Utf8.Ascii, List.forall_mem_cons, List.forall_mem_cons, List.forall_mem_cons]
      exact ⟨by decide, ascii_of_value hhigh, ascii_of_value hlow, ih ht⟩

/-- A text in another case, nothing escaped. -/
theorem Spelling.of_plain (hcase : s.map Char.toLower = t) (hsign : '%' ∉ s) : Spelling t s := by
  induction s generalizing t with
  | nil =>
      subst hcase
      exact .nil
  | cons d s ih =>
      subst hcase
      rw [List.mem_cons, not_or] at hsign
      exact .plain rfl (Ne.symm hsign.1) (ih rfl hsign.2)

/-- What is written is signs, digits and the characters of the text. -/
theorem Spelling.mem {c : Char} (h : Spelling t s) (hc : c ∈ s) :
    c = '%' ∨ (∃ n, Hex.value c = some n) ∨ c.toLower ∈ t := by
  induction h with
  | nil => cases hc
  | plain hd _ _ ih =>
      rcases List.mem_cons.mp hc with rfl | hc
      · exact .inr (.inr (hd ▸ List.mem_cons_self))
      · exact (ih hc).imp_right (Or.imp_right (List.mem_cons_of_mem _))
  | escaped _ hhigh hlow _ ih =>
      rcases List.mem_cons.mp hc with rfl | hc
      · exact .inl rfl
      rcases List.mem_cons.mp hc with rfl | hc
      · exact .inr (.inl ⟨_, hhigh⟩)
      rcases List.mem_cons.mp hc with rfl | hc
      · exact .inr (.inl ⟨_, hlow⟩)
      · exact (ih hc).imp_right (Or.imp_right (List.mem_cons_of_mem _))

/-- Of the ASCII characters only the sign has the byte of the sign. -/
theorem toUInt8_ne_sign {d : Char} (hd : d.toNat < 128) (hne : d ≠ '%') : d.toUInt8 ≠ sign := by
  intro heq
  have hchar := congrArg Char.ofUInt8 heq
  rw [Utf8.ofUInt8_toUInt8 hd] at hchar
  exact hne hchar

/-- An escaped character is its byte, high nibble first. -/
theorem escaped_char {d h l : Char} (hhigh : Hex.value h = some (d.toNat / 16))
    (hlow : Hex.value l = some (d.toNat % 16)) : escaped h.toUInt8 l.toUInt8 = some d.toUInt8 := by
  have hdiv : d.toNat / 16 * 16 + d.toNat % 16 = d.toNat := by omega
  rw [escaped, Utf8.ofUInt8_toUInt8 (ascii_of_value hhigh),
    Utf8.ofUInt8_toUInt8 (ascii_of_value hlow), hhigh, hlow]
  dsimp only
  rw [hdiv]
  rfl

/-- **A spelling decodes to what it spells**, up to case. The induction is on how the text is
spelled, one character at a time, plainly or by an escape. -/
theorem decode_spelling (h : Spelling t s) (ht : Utf8.Ascii t) :
    ((decode (s.map Char.toUInt8)).map Char.ofUInt8).map Char.toLower = t := by
  induction h with
  | nil => rfl
  | @plain c d t s hd hne _ ih =>
      obtain ⟨hc, ht⟩ := List.forall_mem_cons.mp ht
      have hcode : d.toNat < 128 := by rwa [← ascii_toLower, hd]
      rw [List.map_cons, decode_plain (toUInt8_ne_sign hcode hne), List.map_cons, List.map_cons,
        ih ht, Utf8.ofUInt8_toUInt8 hcode, hd]
  | @escaped c d high low t s hd hhigh hlow _ ih =>
      obtain ⟨hc, ht⟩ := List.forall_mem_cons.mp ht
      have hcode : d.toNat < 128 := by rwa [← ascii_toLower, hd]
      change ((decode (sign :: high.toUInt8 :: low.toUInt8 :: s.map Char.toUInt8)).map _).map _ = _
      rw [decode_escaped (escaped_char hhigh hlow), List.map_cons, List.map_cons, ih ht,
        Utf8.ofUInt8_toUInt8 hcode, hd]

end Percent
