/-
Text and its UTF-8 bytes.

A text is the list of its Unicode scalar values. `encode` are the bytes of a text, and `decode`
the text of some bytes, where they are one; `decode_eq_some` says that they are inverse. On
ASCII a character is one byte, its code.
-/
import Mathlib

set_option autoImplicit false

namespace Utf8

/-- The bytes of a text. -/
def encode (t : List Char) : List UInt8 := t.flatMap String.utf8EncodeChar

/-- The text with these bytes, if there is one. -/
def decode (bytes : List UInt8) : Option (List Char) := bytes.toByteArray.utf8Decode?.map Array.toList

variable {t : List Char} {bytes : List UInt8}

/-- The bytes of the first character come first. -/
theorem encode_cons (c : Char) (t : List Char) :
    encode (c :: t) = String.utf8EncodeChar c ++ encode t := rfl

/-- A text is read back from its bytes. -/
@[simp] theorem decode_encode (t : List Char) : decode (encode t) = some t := by
  have h : (encode t).toByteArray.utf8Decode? = some t.toArray := List.utf8Decode?_utf8Encode
  rw [decode, h]
  rfl

/-- Bytes that are a text are the bytes of that text, and of no other. -/
theorem decode_eq_some : decode bytes = some t ↔ encode t = bytes := by
  constructor
  · intro h
    obtain ⟨a, ha, rfl⟩ := Option.map_eq_some_iff.mp h
    have hvalid : bytes.toByteArray.utf8Decode?.isSome = true := Option.isSome_of_mem ha
    have heq := ByteArray.utf8Encode_get_utf8Decode? (b := bytes.toByteArray) (h := hvalid)
    rw [Option.get_of_mem hvalid ha] at heq
    exact List.toByteArray_inj.mp heq
  · rintro rfl
    exact decode_encode t

/-! ## ASCII -/

/-- Every character is an ASCII character. -/
def Ascii (t : List Char) : Prop := ∀ c ∈ t, c.toNat < 128

/-- An ASCII text is its codes, one byte each. -/
theorem encode_ascii (h : Ascii t) : encode t = t.map Char.toUInt8 := by
  induction t with
  | nil => rfl
  | cons c t ih =>
      obtain ⟨hc, ht⟩ := List.forall_mem_cons.mp h
      have hsize : c.utf8Size = 1 := by
        rw [Char.utf8Size_eq_one_iff, UInt32.le_iff_toNat_le]
        change c.toNat ≤ 127
        omega
      rw [encode_cons, String.utf8EncodeChar_eq_singleton hsize, ih ht]
      rfl

/-- Other characters have a byte that no ASCII text has, so bytes below 128 are those of an ASCII
text. -/
theorem ascii_of_bytes (h : ∀ b ∈ encode t, b.toNat < 128) : Ascii t := by
  intro c hc
  by_contra hcode
  have hfirst : ∃ b ∈ String.utf8EncodeChar c, 128 ≤ b.toNat := by
    have hcode' : ¬ c.val.toNat ≤ 0x7f := by
      change ¬ c.toNat ≤ 127
      omega
    unfold String.utf8EncodeChar
    dsimp only
    rw [if_neg hcode']
    split
    · exact ⟨_, List.mem_cons_self, by rw [UInt8.toNat_ofNat']; omega⟩
    · split
      · exact ⟨_, List.mem_cons_self, by rw [UInt8.toNat_ofNat']; omega⟩
      · exact ⟨_, List.mem_cons_self, by rw [UInt8.toNat_ofNat']; omega⟩
  obtain ⟨b, hb, hle⟩ := hfirst
  have := h b (List.mem_flatMap.mpr ⟨c, hc, hb⟩)
  omega

/-- An ASCII character is told by its byte. -/
theorem ofUInt8_toUInt8 {c : Char} (hc : c.toNat < 128) : Char.ofUInt8 c.toUInt8 = c := by
  apply Char.ext
  apply UInt32.toNat_inj.mp
  change c.val.toNat < 128 at hc
  change (c.val.toUInt8.toUInt32).toNat = c.val.toNat
  rw [UInt8.toNat_toUInt32, UInt32.toNat_toUInt8]
  omega

/-- Every byte is the code of a character. -/
theorem toUInt8_ofUInt8 (b : UInt8) : (Char.ofUInt8 b).toUInt8 = b := by
  apply UInt8.toNat_inj.mp
  change (b.toUInt32.toUInt8).toNat = b.toNat
  rw [UInt32.toNat_toUInt8, UInt8.toNat_toUInt32]
  have := b.toNat_lt
  omega

@[simp] theorem toNat_ofUInt8 (b : UInt8) : (Char.ofUInt8 b).toNat = b.toNat := by
  change b.toUInt32.toNat = b.toNat
  rw [UInt8.toNat_toUInt32]

/-- Bytes below 128 are ASCII characters. -/
theorem ascii_map_ofUInt8 (h : ∀ b ∈ bytes, b.toNat < 128) : Ascii (bytes.map Char.ofUInt8) := by
  intro c hc
  obtain ⟨b, hb, rfl⟩ := List.mem_map.mp hc
  rw [toNat_ofUInt8]
  exact h b hb

/-- ASCII bytes are a text, a character for each byte. -/
theorem decode_ascii (h : ∀ b ∈ bytes, b.toNat < 128) :
    decode bytes = some (bytes.map Char.ofUInt8) := by
  rw [decode_eq_some, encode_ascii (ascii_map_ofUInt8 h), List.map_map]
  calc bytes.map (Char.toUInt8 ∘ Char.ofUInt8)
      = bytes.map id := List.map_congr_left fun b _ => toUInt8_ofUInt8 b
    _ = bytes := List.map_id bytes

end Utf8
