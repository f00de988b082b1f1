/-
Hexadecimal text.

A byte is two digits, high nibble first (`encode`), and a number of a given width is its
digits, most significant first (`fixed`); both write lower case. Reading takes either case:
`value` reads a digit, `number` a string of them. `number_eq_some` and `encode_injective` with
`encode_surjective` say that writing and reading are inverse on the strings that can be
written, up to case where reading forgets it.
-/
import Mathlib

set_option autoImplicit false

namespace Hex

/-! ## Digits -/

def digits : List Char :=
  ['0', '1', '2', '3', '4', '5', '6', '7', '8', '9', 'a', 'b', 'c', 'd', 'e', 'f']

/-- The lower-case digit of a nibble. -/
def digit (n : ℕ) : Char := digits.getD n '0'

/-- The nibble of a digit of either case. -/
def value (c : Char) : Option ℕ := digits.idxOf? c.toLower

/-- A decimal digit, or a letter from `a` to `f`. -/
def IsLower (c : Char) : Prop := ('0' ≤ c ∧ c ≤ '9') ∨ ('a' ≤ c ∧ c ≤ 'f')

instance (c : Char) : Decidable (IsLower c) := inferInstanceAs (Decidable (_ ∨ _))

variable {c : Char} {n m w : ℕ}

/-- Different nibbles have different digits. -/
theorem digit_inj (hn : n < 16) (hm : m < 16) (h : digit n = digit m) : n = m := by
  have hall : ∀ i < 16, ∀ j < 16, digit i = digit j → i = j := by decide
  exact hall n hn m hm h

/-- Digits are written in lower case. -/
@[simp] theorem toLower_digit (n : ℕ) : (digit n).toLower = digit n := by
  by_cases hn : n < 16
  · have hall : ∀ i < 16, (digit i).toLower = digit i := by decide
    exact hall n hn
  · -- Beyond the table every number reads as zero.
    have hlength : digits.length ≤ n := by
      change 16 ≤ n
      omega
    rw [digit, List.getD_eq_default _ _ hlength]
    rfl

/-- The digits in their order. -/
theorem getElem_digits (h : n < digits.length) : digits[n] = digit n := by
  rw [digit, List.getD_eq_getElem _ _ h]

/-- A digit of either case is read as the nibble that its lower case is written for. -/
theorem value_eq_some : value c = some n ↔ n < 16 ∧ c.toLower = digit n := by
  rw [value, List.idxOf?, List.findIdx?_eq_some_iff_getElem]
  constructor
  · rintro ⟨hn, heq, -⟩
    rw [beq_iff_eq, getElem_digits] at heq
    exact ⟨hn, heq.symm⟩
  · rintro ⟨hn, heq⟩
    refine ⟨hn, ?_, ?_⟩
    · exact beq_iff_eq.mpr ((getElem_digits _).trans heq.symm)
    · -- No digit stands in the table twice.
      intro j hj hbeq
      rw [beq_iff_eq, getElem_digits, heq] at hbeq
      have := digit_inj (by omega) hn hbeq
      omega

/-- The lower-case digits are the digits that are written. -/
theorem isLower_iff : IsLower c ↔ ∃ n < 16, c = digit n := by
  constructor
  · intro h
    -- The code of a digit is in one of two ranges, and both are finite.
    have hcodes : ∀ k < 103, (48 ≤ k ∧ k ≤ 57) ∨ (97 ≤ k ∧ k ≤ 102) →
        ∃ n < 16, Char.ofNat k = digit n := by
      decide
    have hcode : (48 ≤ c.toNat ∧ c.toNat ≤ 57) ∨ (97 ≤ c.toNat ∧ c.toNat ≤ 102) := h
    obtain ⟨n, hn, heq⟩ := hcodes c.toNat (by omega) hcode
    refine ⟨n, hn, ?_⟩
    rw [← heq, Char.ofNat_toNat]
  · rintro ⟨n, hn, rfl⟩
    have hall : ∀ i < 16, IsLower (digit i) := by decide
    exact hall n hn

/-! ## Numbers of a given width -/

/-- The last `w` digits of `n`. -/
def fixed : ℕ → ℕ → List Char
  | 0, _ => []
  | w + 1, n => fixed w (n / 16) ++ [digit (n % 16)]

/-- A number of width `w` is `w` digits. -/
@[simp] theorem length_fixed (w n : ℕ) : (fixed w n).length = w := by
  induction w generalizing n with
  | zero => rfl
  | succ w ih => rw [fixed, List.length_append, ih, List.length_singleton]

/-- Numbers are written in lower case. -/
theorem isLower_fixed (hc : c ∈ fixed w n) : IsLower c := by
  induction w generalizing n with
  | zero => cases hc
  | succ w ih =>
      rw [fixed, List.mem_append, List.mem_singleton] at hc
      rcases hc with hc | rfl
      · exact ih hc
      · exact isLower_iff.mpr ⟨n % 16, Nat.mod_lt _ (by omega), rfl⟩

/-- Reads digits of either case, most significant first. -/
def number (s : List Char) : Option ℕ :=
  s.foldlM (fun n c => (value c).map fun d => 16 * n + d) 0

/-- One more digit at the end is sixteen times the number, and the digit. -/
theorem number_concat (s : List Char) (c : Char) :
    number (s ++ [c]) = (number s).bind fun n => (value c).map fun d => 16 * n + d := by
  rw [number, List.foldlM_append]
  exact congrArg _ (funext fun n => bind_pure _)

/-- **Numbers are read as they are written**, in either case: a string is a number exactly if that
number, in the width of the string, is written like it up to case. -/
theorem number_eq_some {s : List Char} :
    number s = some n ↔ n < 16 ^ s.length ∧ s.map Char.toLower = fixed s.length n := by
  -- Induction from the last digit, the one `fixed` writes last.
  induction s using List.reverseRecOn generalizing n with
  | nil =>
      rw [List.length_nil, pow_zero, Nat.lt_one_iff, List.map_nil]
      exact ⟨fun h => ⟨(Option.some.inj h).symm, rfl⟩, fun h => h.1 ▸ rfl⟩
  | append_singleton s c ih =>
      rw [number_concat, Option.bind_eq_some_iff, List.map_append, List.length_append,
        List.length_singleton, fixed, List.map_singleton]
      constructor
      · rintro ⟨m, hm, hn⟩
        obtain ⟨d, hd, rfl⟩ := Option.map_eq_some_iff.mp hn
        obtain ⟨hlt, hs⟩ := ih.mp hm
        obtain ⟨hd, hc⟩ := value_eq_some.mp hd
        have hdiv : (16 * m + d) / 16 = m := by omega
        have hmod : (16 * m + d) % 16 = d := by omega
        rw [hdiv, hmod, hs, hc, pow_succ]
        exact ⟨by omega, rfl⟩
      · rintro ⟨hlt, heq⟩
        obtain ⟨hs, hc⟩ := List.append_inj heq (by rw [List.length_map, length_fixed])
        have hmod : n % 16 < 16 := Nat.mod_lt _ (by omega)
        refine ⟨n / 16, ih.mpr ⟨?_, hs⟩, ?_⟩
        · rw [pow_succ] at hlt
          omega
        · rw [value_eq_some.mpr ⟨hmod, List.singleton_injective hc⟩, Option.map_some,
            Option.some.injEq]
          omega

/-- To lower the case of a written number changes nothing. -/
theorem map_toLower_fixed (w n : ℕ) : (fixed w n).map Char.toLower = fixed w n := by
  induction w generalizing n with
  | zero => rfl
  | succ w ih => rw [fixed, List.map_append, ih, List.map_singleton, toLower_digit]

/-- What is written is read back, if it fits its width. -/
theorem number_fixed (hn : n < 16 ^ w) : number (fixed w n) = some n := by
  rw [number_eq_some, length_fixed, map_toLower_fixed]
  exact ⟨hn, rfl⟩

/-- Different numbers that fit a width are written differently in it. -/
theorem fixed_inj (hn : n < 16 ^ w) (hm : m < 16 ^ w) (h : fixed w n = fixed w m) : n = m := by
  have heq := number_fixed hn
  rw [h, number_fixed hm] at heq
  exact (Option.some.inj heq).symm

/-! ## Bytes -/

/-- Two digits for each byte. -/
def encode (bytes : List UInt8) : List Char := bytes.flatMap fun b => fixed 2 b.toNat

/-- The first byte comes first. -/
theorem encode_cons (b : UInt8) (bs : List UInt8) :
    encode (b :: bs) = fixed 2 b.toNat ++ encode bs := rfl

/-- Two digits for each byte. -/
@[simp] theorem length_encode (bs : List UInt8) : (encode bs).length = 2 * bs.length := by
  induction bs with
  | nil => rfl
  | cons b bs ih =>
      rw [encode_cons, List.length_append, length_fixed, ih, List.length_cons]
      omega

/-- Bytes are written in lower case. -/
theorem isLower_encode {bs : List UInt8} (hc : c ∈ encode bs) : IsLower c := by
  obtain ⟨b, -, hb⟩ := List.mem_flatMap.mp hc
  exact isLower_fixed hb

/-- Different bytes are written differently: the first two digits tell the first byte. -/
theorem encode_injective : Function.Injective encode := by
  intro bs
  induction bs with
  | nil =>
      intro bs' h
      have hlength := congrArg List.length h
      rw [length_encode, length_encode, List.length_nil] at hlength
      exact (List.length_eq_zero_iff.mp (by omega)).symm
  | cons b bs ih =>
      intro bs' h
      cases bs' with
      | nil =>
          have hlength := congrArg List.length h
          rw [length_encode, length_encode, List.length_nil, List.length_cons] at hlength
          omega
      | cons b' bs' =>
          rw [encode_cons, encode_cons] at h
          obtain ⟨hb, hbs⟩ := List.append_inj h (by rw [length_fixed, length_fixed])
          have hlt := b.toNat_lt
          have hlt' := b'.toNat_lt
          rw [UInt8.toNat_inj.mp (fixed_inj (by omega) (by omega) hb), ih hbs]

/-- Every string of lower-case digits, two for each byte, is written for some bytes; by induction
on their number, two digits at a time. -/
theorem encode_surjective {s : List Char} {k : ℕ} (hlength : s.length = 2 * k)
    (hlower : ∀ c ∈ s, IsLower c) : ∃ bs, bs.length = k ∧ encode bs = s := by
  induction k generalizing s with
  | zero =>
      exact ⟨[], rfl, (List.length_eq_zero_iff.mp (by omega)).symm⟩
  | succ k ih =>
      rcases s with _ | ⟨c, _ | ⟨d, s⟩⟩
      · rw [List.length_nil] at hlength
        omega
      · rw [List.length_singleton] at hlength
        omega
      · rw [List.length_cons, List.length_cons] at hlength
        rw [List.forall_mem_cons, List.forall_mem_cons] at hlower
        obtain ⟨hc, hd, hrest⟩ := hlower
        obtain ⟨bs, hbs, rfl⟩ := ih (by omega) hrest
        obtain ⟨n, hn, rfl⟩ := isLower_iff.mp hc
        obtain ⟨m, hm, rfl⟩ := isLower_iff.mp hd
        refine ⟨UInt8.ofNat (16 * n + m) :: bs, by rw [List.length_cons, hbs], ?_⟩
        have hbyte : (UInt8.ofNat (16 * n + m)).toNat = 16 * n + m :=
          UInt8.toNat_ofNat_of_lt' (by change _ < 256; omega)
        have hdiv : (16 * n + m) / 16 = n := by omega
        have hmod : (16 * n + m) % 16 = m := by omega
        rw [encode_cons, hbyte, fixed, fixed, fixed, hdiv, hmod, Nat.mod_eq_of_lt hn]
        rfl

end Hex
