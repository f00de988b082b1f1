/-
`crates/app/src/invites.rs`: what a request body has to hold.

A body is JSON, read by `serde_json` into a `Value`; `object`, `integer` and `string` take what
the handlers need from it, and `acceptance_fields` checks what a new person enters. All of
them answer 422 and say nothing else. What passes can be stored: PostgreSQL refuses U+0000
in text, and so do the checks.
-/
import Fukulow.App.Origins
import Fukulow.Statements
import Mathlib.Data.List.DropRight
import Mathlib.Data.List.TakeWhile

set_option autoImplicit false

namespace Fukulow

/-! ## `serde_json` -/

/-- `serde_json::Number`; of a float nothing is read. -/
inductive Number where
  | pos_int (n : UInt64)
  | neg_int (n : Int64)
  | float (bits : UInt64)
deriving DecidableEq

def Number.as_i64 : Number → Option ℤ
  | pos_int n => if n.toNat < 2 ^ 63 then some n.toNat else none
  | neg_int n => some n.toInt
  | float _ => none

/-- `serde_json::Value`; a `Map` is the list of its fields, no key twice. -/
inductive Value where
  | null
  | bool (b : Bool)
  | number (n : Number)
  | string (s : Text)
  | array (xs : List Value)
  | object (fields : List (Text × Value))

abbrev Fields : Type := List (Text × Value)

def Value.as_str : Value → Option Text
  | string s => some s
  | _ => none

def Value.as_i64 : Value → Option ℤ
  | number n => n.as_i64
  | _ => none

def Value.as_object : Value → Option Fields
  | object fields => some fields
  | _ => none

/-! ## Statuses -/

namespace StatusCode

def OK : StatusCode := ⟨200⟩
def CREATED : StatusCode := ⟨201⟩
def NO_CONTENT : StatusCode := ⟨204⟩
def UNAUTHORIZED : StatusCode := ⟨401⟩
def METHOD_NOT_ALLOWED : StatusCode := ⟨405⟩
def CONFLICT : StatusCode := ⟨409⟩
def UNPROCESSABLE_ENTITY : StatusCode := ⟨422⟩
def INTERNAL_SERVER_ERROR : StatusCode := ⟨500⟩

end StatusCode

/-- `ok_or(status)?`. -/
def or_status {α : Type} (value : Option α) (status : StatusCode) : Except Stop α :=
  match value with
  | some a => .ok a
  | none => .error (.status status)

/-! ## Unicode -/

/-- `char::is_whitespace`: the property White_Space. -/
def is_whitespace (c : Char) : Bool :=
  (9 ≤ c.toNat && c.toNat ≤ 13) || (0x2000 ≤ c.toNat && c.toNat ≤ 0x200a)
    || [0x20, 0x85, 0xa0, 0x1680, 0x2028, 0x2029, 0x202f, 0x205f, 0x3000].contains c.toNat

/-- `str::trim`. -/
def trim (value : Text) : Text := (value.dropWhile is_whitespace).rdropWhile is_whitespace

/-! ## `invites.rs` -/

/-- `object`; `body` is `none` when the body could not be read. -/
def object (from_slice : List UInt8 → Option Value) (body : Option (List UInt8)) :
    Except Stop Fields := do
  let body ← or_status body .UNPROCESSABLE_ENTITY
  match from_slice body with
  | some (.object fields) => .ok fields
  | _ => .error (.status .UNPROCESSABLE_ENTITY)

def integer (fields : Fields) (key : String) (min max : ℤ) : Except Stop ℤ :=
  or_status (((fields.lookup key.toList).bind Value.as_i64).filter fun value =>
    min ≤ value && value ≤ max) .UNPROCESSABLE_ENTITY

def string (fields : Fields) (key : String) : Except Stop Text :=
  or_status ((fields.lookup key.toList).bind Value.as_str) .UNPROCESSABLE_ENTITY

def acceptance_fields (fields : Fields) : Except Stop (Text × Text × Text) := do
  let email ← string fields "email"
  let password ← string fields "password"
  let display_name := trim (← string fields "display_name")
  if !(3 ≤ (Utf8.encode email).length && (Utf8.encode email).length ≤ 254)
      || (email.filter fun c => c = '@').length ≠ 1
      || email.any (fun c => is_whitespace c || c = '\x00')
      || password.length < 8
      || 1024 < (Utf8.encode password).length
      || !(1 ≤ display_name.length && display_name.length ≤ 80)
      || display_name.contains '\x00' then
    .error (.status .UNPROCESSABLE_ENTITY)
  else .ok (email, password, display_name)

/-! ## What passes -/

/-- What a new person may enter. -/
structure Acceptable (email password display_name : Text) : Prop where
  email_bytes : 3 ≤ (Utf8.encode email).length ∧ (Utf8.encode email).length ≤ 254
  one_at : email.count '@' = 1
  unbroken : ∀ c ∈ email, is_whitespace c = false
  email_storable : storable email = true
  password_chars : 8 ≤ password.length
  password_bytes : (Utf8.encode password).length ≤ 1024
  name_chars : 1 ≤ display_name.length ∧ display_name.length ≤ 80
  name_trimmed : trim display_name = display_name
  name_storable : storable display_name = true

/-- Trimming what is trimmed does nothing. -/
theorem trim_trim (value : Text) : trim (trim value) = trim value := by
  have hdrop : (trim value).dropWhile is_whitespace = trim value := by
    -- What is left starts as it did before its end was trimmed.
    rw [List.dropWhile_eq_self_iff]
    intro hlen hspace
    have hle : trim value <+: value.dropWhile is_whitespace := List.rdropWhile_prefix _ _
    have hlen' : 0 < (value.dropWhile is_whitespace).length := hlen.trans_le hle.length_le
    rw [hle.getElem hlen] at hspace
    exact (List.dropWhile_eq_self_iff.mp (List.dropWhile_idempotent is_whitespace value)) hlen' hspace
  rw [trim, hdrop]
  exact List.rdropWhile_idempotent _ _

section Accepted

variable {fields : Fields} {key : String} {email password display_name : Text}

/-- An option has a value where the result had it. -/
theorem toOption_eq_some {ε α : Type} {x : Except ε α} {a : α} :
    x.toOption = some a ↔ x = .ok a := by
  cases x <;> simp [Except.toOption]

/-- What `or_status` lets through is the value. -/
theorem or_status_ok {α : Type} {value : Option α} {status : StatusCode} {a : α} :
    or_status value status = .ok a ↔ value = some a := by
  cases value <;> simp [or_status]

/-- It refuses when there is none, with its status. -/
theorem or_status_error {α : Type} {value : Option α} {status : StatusCode} {stop : Stop} :
    or_status value status = .error stop ↔ value = none ∧ stop = .status status := by
  cases value <;> simp [or_status, eq_comm]

/-- A string is read from the field of that name, if that holds one. -/
theorem string_ok {value : Text} :
    string fields key = .ok value ↔ fields.lookup key.toList = some (.string value) := by
  rw [string, or_status_ok, Option.bind_eq_some_iff]
  constructor
  · rintro ⟨v, hv, hstr⟩
    cases v with
    | string s =>
        cases hstr
        exact hv
    | _ => cases hstr
  · intro h
    exact ⟨_, h, rfl⟩

/-- An integer is read from a number without a fraction that fits, within its bounds. -/
theorem integer_ok {min max value : ℤ} :
    integer fields key min max = .ok value
      ↔ (∃ n, fields.lookup key.toList = some (.number n) ∧ n.as_i64 = some value)
        ∧ min ≤ value ∧ value ≤ max := by
  rw [integer, or_status_ok, Option.filter_eq_some_iff, Option.bind_eq_some_iff, Bool.and_eq_true,
    decide_eq_true_eq, decide_eq_true_eq]
  refine and_congr_left fun _ => ⟨?_, ?_⟩
  · rintro ⟨v, hv, hnum⟩
    cases v with
    | number n => exact ⟨n, hv, hnum⟩
    | _ => cases hnum
  · rintro ⟨n, hn, hvalue⟩
    exact ⟨_, hn, hvalue⟩

/-- The last check of `acceptance_fields`, on strings. The name is trimmed before it is measured,
so what is stored is trimmed. -/
theorem acceptable_iff {raw : Text} :
    (!(3 ≤ (Utf8.encode email).length && (Utf8.encode email).length ≤ 254)
      || (email.filter fun c => c = '@').length ≠ 1
      || email.any (fun c => is_whitespace c || c = '\x00')
      || password.length < 8
      || 1024 < (Utf8.encode password).length
      || !(1 ≤ (trim raw).length && (trim raw).length ≤ 80)
      || (trim raw).contains '\x00') = false ↔ Acceptable email password (trim raw) := by
  have hcount : (email.filter fun c => c = '@').length = email.count '@' := by
    rw [List.count_eq_countP, List.countP_eq_length_filter]
    rfl
  -- One pass of the source looks for white space and for U+0000 at once.
  have hany : email.any (fun c => is_whitespace c || c = '\x00') = false
      ↔ (∀ c ∈ email, is_whitespace c = false) ∧ storable email = true := by
    simp only [List.any_eq_false, Bool.or_eq_true, decide_eq_true_eq, not_or, storable,
      Bool.not_eq_true', List.contains_eq_any_beq, beq_iff_eq, Bool.not_eq_true]
    constructor
    · intro h
      exact ⟨fun c hc => (h c hc).1, fun c hc heq => (h c hc).2 heq.symm⟩
    · rintro ⟨hspace, hnul⟩ c hc
      exact ⟨hspace c hc, fun heq => hnul c hc heq.symm⟩
  have hname : (trim raw).contains '\x00' = false ↔ storable (trim raw) = true := by
    rw [storable, Bool.not_eq_true']
  simp only [Bool.or_eq_false_iff, Bool.not_eq_false', Bool.and_eq_true, decide_eq_true_eq,
    decide_eq_false_iff_not, not_not, not_lt, hcount, hany, hname]
  constructor
  · rintro ⟨⟨⟨⟨⟨⟨hbytes, hat⟩, hspace, hnul⟩, hchars⟩, hpass⟩, hlen⟩, hstore⟩
    exact ⟨hbytes, hat, hspace, hnul, hchars, hpass, hlen, trim_trim raw, hstore⟩
  · intro h
    exact ⟨⟨⟨⟨⟨⟨h.email_bytes, h.one_at⟩, h.unbroken, h.email_storable⟩, h.password_chars⟩,
      h.password_bytes⟩, h.name_chars⟩, h.name_storable⟩

/-- Every error of the readers is 422, also that of a missing field. -/
theorem string_error {stop : Stop} (h : string fields key = .error stop) :
    stop = .status .UNPROCESSABLE_ENTITY :=
  (or_status_error.mp h).2

/-- So is that of a body that could not be read, is not JSON, or is no object. -/
theorem object_error {from_slice : List UInt8 → Option Value} {body : Option (List UInt8)}
    {stop : Stop} (h : object from_slice body = .error stop) :
    stop = .status .UNPROCESSABLE_ENTITY := by
  cases body with
  | none =>
      cases h
      rfl
  | some bytes =>
      simp only [object, or_status, bind, Except.bind] at h
      cases hvalue : from_slice bytes with
      | none =>
          rw [hvalue] at h
          cases h
          rfl
      | some value =>
          rw [hvalue] at h
          cases value with
          | object fields => cases h
          | null | bool _ | number _ | string _ | array _ =>
              cases h
              rfl

/-- The three strings, and the check on them; whatever fails, the answer is the same. -/
theorem acceptance_fields_cases :
    (∃ email password raw, fields.lookup "email".toList = some (.string email)
        ∧ fields.lookup "password".toList = some (.string password)
        ∧ fields.lookup "display_name".toList = some (.string raw)
        ∧ Acceptable email password (trim raw)
        ∧ acceptance_fields fields = .ok (email, password, trim raw))
      ∨ acceptance_fields fields = .error (.status .UNPROCESSABLE_ENTITY) := by
  unfold acceptance_fields
  cases hemail : string fields "email" with
  | error e => exact .inr (congrArg Except.error (string_error hemail))
  | ok email =>
  cases hpassword : string fields "password" with
  | error e => exact .inr (congrArg Except.error (string_error hpassword))
  | ok password =>
  cases hname : string fields "display_name" with
  | error e => exact .inr (congrArg Except.error (string_error hname))
  | ok raw =>
  by_cases hacceptable : Acceptable email password (trim raw)
  · refine .inl ⟨email, password, raw, string_ok.mp hemail, string_ok.mp hpassword,
      string_ok.mp hname, hacceptable, ?_⟩
    exact if_neg (Bool.eq_false_iff.mp (acceptable_iff.mpr hacceptable))
  · exact .inr (if_pos (Bool.of_not_eq_false (mt acceptable_iff.mp hacceptable)))

/-- **What `acceptance_fields` accepts**: three strings, with the name trimmed, that pass the
check; and each of them is the body's own. -/
theorem acceptance_fields_ok :
    acceptance_fields fields = .ok (email, password, display_name)
      ↔ fields.lookup "email".toList = some (.string email)
        ∧ fields.lookup "password".toList = some (.string password)
        ∧ (∃ raw, fields.lookup "display_name".toList = some (.string raw) ∧ display_name = trim raw)
        ∧ Acceptable email password display_name := by
  constructor
  · intro h
    obtain ⟨e, p, raw, he, hp, hraw, hacceptable, hok⟩ | herror := acceptance_fields_cases
    · cases hok.symm.trans h
      exact ⟨he, hp, ⟨raw, hraw, rfl⟩, hacceptable⟩
    · cases herror.symm.trans h
  · rintro ⟨he, hp, ⟨raw, hraw, rfl⟩, hacceptable⟩
    rw [acceptance_fields, string_ok.mpr he, string_ok.mpr hp, string_ok.mpr hraw]
    exact if_neg (Bool.eq_false_iff.mp (acceptable_iff.mpr hacceptable))

/-- Whatever it refuses is 422. -/
theorem acceptance_fields_error {stop : Stop} (h : acceptance_fields fields = .error stop) :
    stop = .status .UNPROCESSABLE_ENTITY := by
  obtain ⟨e, p, raw, -, -, -, -, hok⟩ | herror := acceptance_fields_cases
  · cases hok.symm.trans h
  · cases herror.symm.trans h
    rfl

end Accepted

end Fukulow
