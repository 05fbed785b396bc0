import GambitCore.Codec.Bits
import Mathlib.Algebra.Ring.Nat
import Mathlib.Data.List.TakeWhile

/-!
# Numbers in text

What `strtoul` of the C library reads from a text: white space, a sign, in base 16 a mark `0x`, and
then as many digits as there are. What follows the digits is not looked at, and a minus sign is
taken modulo `2 ^ 64`.

## Main definitions

* `Codec.IsNumber` — a text of digits, at least one, with its value
* `Codec.strtoul` — the reader
* `Codec.hexText` — the text `%llx` prints

## Main results

* `strtoul_of_isNumber`, `strtoul_marked` — the reader on a text of digits, with and without `0x`
* `isNumber_iff_of_strtoul` — of the texts with a given reading, those of digits only are numbers
* `isNumber_toString`, `isNumber_hexText` — the decimal and the hexadecimal text of a number are
  texts of digits with its value
-/

namespace Codec

/-- `isspace`. -/
def isSpace (c : UInt8) : Bool := c == 32 || (9 ≤ c && c ≤ 13)

/-- The value of a digit or a letter; of other characters, more than any base has. -/
def charValue (c : UInt8) : ℕ :=
  if 48 ≤ c ∧ c ≤ 57 then c.toNat - 48
  else if 97 ≤ c ∧ c ≤ 122 then c.toNat - 87
  else if 65 ≤ c ∧ c ≤ 90 then c.toNat - 55
  else 36

/-- The digits of a base up to 36. -/
def isDigit (base : ℕ) (c : UInt8) : Bool := charValue c < base

/-- The value of digits, the most significant first. -/
def digitsValue (base : ℕ) (digits : List UInt8) : ℕ :=
  digits.foldl (fun n c => n * base + charValue c) 0

/-- A text of digits, at least one, and its value. -/
structure IsNumber (base : ℕ) (text : List UInt8) (n : ℕ) : Prop where
  ne_nil : text ≠ []
  digits : ∀ c ∈ text, isDigit base c
  value : digitsValue base text = n

/-- Why no number is read. -/
inductive NumberError
  | noDigits
  | outOfRange

/-- The text behind a `+` or a `-`, and whether there was a `-`. -/
def readSign : List UInt8 → Bool × List UInt8
  | 43 :: cs => (false, cs)
  | 45 :: cs => (true, cs)
  | cs => (false, cs)

/-- Base 16 allows a mark `0x` or `0X` before the digits. Without a digit behind it the `0` is the
number. -/
def skipMark (base : ℕ) : List UInt8 → List UInt8
  | 48 :: x :: c :: cs =>
    if base = 16 ∧ (x = 120 ∨ x = 88) ∧ isDigit 16 c then c :: cs else 48 :: x :: c :: cs
  | cs => cs

/-- `strtoul` with a 64-bit result. -/
def strtoul (base : ℕ) (text : List UInt8) : Except NumberError UInt64 :=
  let (negative, cs) := readSign (text.dropWhile isSpace)
  let digits := (skipMark base cs).takeWhile (isDigit base)
  if digits = [] then .error .noDigits
  else
    let n := digitsValue base digits
    if 2 ^ 64 ≤ n then .error .outOfRange
    else .ok (if negative then -UInt64.ofNat n else UInt64.ofNat n)

/-! ### Texts of digits -/

variable {base : ℕ}

theorem digitsValue_append_singleton (base : ℕ) (digits : List UInt8) (c : UInt8) :
    digitsValue base (digits ++ [c]) = digitsValue base digits * base + charValue c := by
  simp [digitsValue]

/-- A digit is neither white space nor a sign. -/
theorem not_special_of_charValue {c : UInt8} (h : charValue c < 36) :
    isSpace c = false ∧ c ≠ 43 ∧ c ≠ 45 := by
  have hall : ∀ c : UInt8, charValue c < 36 → isSpace c = false ∧ c ≠ 43 ∧ c ≠ 45 :=
    forall_byte (by decide +kernel)
  exact hall c h

theorem readSign_of_ne {c : UInt8} {cs : List UInt8} (hplus : c ≠ 43) (hminus : c ≠ 45) :
    readSign (c :: cs) = (false, c :: cs) := by
  unfold readSign
  split
  · next heq => exact absurd (List.cons.inj heq).1 hplus
  · next heq => exact absurd (List.cons.inj heq).1 hminus
  · rfl

/-- Where a digit comes first, there is no white space and no sign to skip. -/
theorem readSign_dropWhile (hbase : base ≤ 36) {c : UInt8} {cs : List UInt8}
    (hc : isDigit base c) : readSign ((c :: cs).dropWhile isSpace) = (false, c :: cs) := by
  obtain ⟨hspace, hplus, hminus⟩ := not_special_of_charValue
    (Nat.lt_of_lt_of_le (by simpa [isDigit] using hc) hbase)
  rw [List.dropWhile_cons_of_neg (by simp [hspace]), readSign_of_ne hplus hminus]

/-- No digit is an `x`. -/
theorem skipMark_of_digits (hbase : base ≤ 33) {text : List UInt8}
    (h : ∀ c ∈ text, isDigit base c) : skipMark base text = text := by
  unfold skipMark
  split
  · next x c cs =>
    have hx : isDigit base x := h x (by simp)
    apply if_neg
    rintro ⟨-, hmark | hmark, -⟩
    · subst hmark
      simp [isDigit, charValue] at hx
      omega
    · subst hmark
      simp [isDigit, charValue] at hx
      omega
  · rfl

/-- The reader on a text that is all digits. -/
theorem strtoul_of_isNumber (hbase : base ≤ 33) {text : List UInt8} {n : ℕ}
    (h : IsNumber base text n) :
    strtoul base text = if 2 ^ 64 ≤ n then .error .outOfRange else .ok (UInt64.ofNat n) := by
  obtain ⟨c, cs, rfl⟩ := List.exists_cons_of_ne_nil h.ne_nil
  have hc : isDigit base c := h.digits c List.mem_cons_self
  have hall : (c :: cs).takeWhile (isDigit base) = c :: cs :=
    List.takeWhile_eq_self_iff.mpr h.digits
  simp only [strtoul, readSign_dropWhile (Nat.le_trans hbase (by decide)) hc,
    skipMark_of_digits hbase h.digits, hall, h.value, if_neg (List.cons_ne_nil c cs),
    Bool.false_eq_true, if_false]

/-- The mark `0x` before digits of base 16 is skipped. -/
theorem strtoul_marked {text : List UInt8} {n : ℕ} (h : IsNumber 16 text n) :
    strtoul 16 (48 :: 120 :: text) =
      if 2 ^ 64 ≤ n then .error .outOfRange else .ok (UInt64.ofNat n) := by
  obtain ⟨c, cs, rfl⟩ := List.exists_cons_of_ne_nil h.ne_nil
  have hc : isDigit 16 c := h.digits c List.mem_cons_self
  have hall : (c :: cs).takeWhile (isDigit 16) = c :: cs :=
    List.takeWhile_eq_self_iff.mpr h.digits
  have hmark : skipMark 16 (48 :: 120 :: c :: cs) = c :: cs := by simp [skipMark, hc]
  have hzero : isDigit 16 48 := by decide
  simp only [strtoul, readSign_dropWhile (by decide) hzero, hmark, hall, h.value,
    if_neg (List.cons_ne_nil c cs), Bool.false_eq_true, if_false]

/-- Of the texts that are read as a number, those of digits only have it as their value. -/
theorem isNumber_iff_of_strtoul (hbase : base ≤ 33) {text : List UInt8} {v : UInt64}
    (h : strtoul base text = .ok v) :
    IsNumber base text v.toNat ↔ ∀ c ∈ text, isDigit base c := by
  refine ⟨IsNumber.digits, fun hdigits => ?_⟩
  have hne : text ≠ [] := by
    rintro rfl
    simp [strtoul, readSign, skipMark] at h
  have hread := strtoul_of_isNumber hbase ⟨hne, hdigits, rfl⟩
  rw [h] at hread
  split at hread
  · cases hread
  · next hlt =>
    refine ⟨hne, hdigits, ?_⟩
    rw [Except.ok.inj hread, UInt64.toNat_ofNat_of_lt' (Nat.lt_of_not_le hlt)]

theorem IsNumber.unique {text : List UInt8} {m n : ℕ} (hm : IsNumber base text m)
    (hn : IsNumber base text n) : m = n :=
  hm.value.symm.trans hn.value

/-! ### Decimal text -/

theorem charValue_of_isDigit {c : Char} (h : c.isDigit) :
    charValue (UInt8.ofNat c.toNat) = c.toNat - 48 ∧ c.toNat - 48 < 10 := by
  simp only [Char.isDigit, Bool.and_eq_true, decide_eq_true_eq] at h
  have hge : 48 ≤ c.toNat := UInt32.le_iff_toNat_le.mp h.1
  have hle : c.toNat ≤ 57 := UInt32.le_iff_toNat_le.mp h.2
  have hbyte : (UInt8.ofNat c.toNat).toNat = c.toNat :=
    UInt8.toNat_ofNat_of_lt' (Nat.lt_of_le_of_lt hle (by decide))
  have hrange : 48 ≤ UInt8.ofNat c.toNat ∧ UInt8.ofNat c.toNat ≤ 57 := by
    rw [UInt8.le_iff_toNat_le, UInt8.le_iff_toNat_le, hbyte]
    exact ⟨hge, hle⟩
  rw [charValue, if_pos hrange, hbyte]
  omega

/-- The value of decimal digits, as bytes and as characters. -/
theorem foldl_charValue {digits : List Char} (h : ∀ c ∈ digits, c.isDigit) (n : ℕ) :
    (digits.map fun c => UInt8.ofNat c.toNat).foldl (fun n c => n * 10 + charValue c) n =
      Nat.ofDigitChars 10 digits n := by
  induction digits generalizing n with
  | nil => rfl
  | cons c digits ih =>
    rw [List.forall_mem_cons] at h
    rw [List.map_cons, List.foldl_cons, (charValue_of_isDigit h.1).1, ih h.2, Nat.mul_comm]
    rfl

/-- The decimal text of a number. -/
theorem isNumber_toString (n : ℕ) :
    IsNumber 10 ((toString n).toList.map fun c => UInt8.ofNat c.toNat) n := by
  have hdigits : ∀ c ∈ Nat.toDigits 10 n, c.isDigit := fun c hc =>
    Nat.isDigit_of_mem_toDigits (by decide) (by decide) hc
  rw [Nat.toString_eq_ofList_toDigits, String.toList_ofList]
  refine ⟨by simp, ?_, ?_⟩
  · intro b hb
    obtain ⟨c, hc, rfl⟩ := List.mem_map.mp hb
    obtain ⟨hvalue, hlt⟩ := charValue_of_isDigit (hdigits c hc)
    simpa [isDigit, hvalue] using hlt
  · rw [digitsValue, foldl_charValue hdigits, Nat.ofDigitChars_ten_toDigits]

/-! ### Hexadecimal text -/

/-- What `%llx` prints: lower-case digits, and no leading zeros. -/
def hexText (n : ℕ) : List UInt8 := (Nat.toDigits 16 n).map fun c => UInt8.ofNat c.toNat

theorem charValue_digitChar {d : ℕ} (h : d < 16) :
    charValue (UInt8.ofNat (Nat.digitChar d).toNat) = d := by
  have hall : ∀ d : Fin 16, charValue (UInt8.ofNat (Nat.digitChar d).toNat) = d := by decide
  exact hall ⟨d, h⟩

theorem hexText_of_lt {n : ℕ} (h : n < 16) : hexText n = [UInt8.ofNat (Nat.digitChar n).toNat] := by
  rw [hexText, Nat.toDigits_of_lt_base h, List.map_singleton]

theorem hexText_of_le {n : ℕ} (h : 16 ≤ n) :
    hexText n = hexText (n / 16) ++ [UInt8.ofNat (Nat.digitChar (n % 16)).toNat] := by
  rw [hexText, Nat.toDigits_of_base_le (by decide) h, List.map_append, List.map_singleton, hexText]

theorem isNumber_append_singleton {text : List UInt8} {n : ℕ} (h : IsNumber base text n)
    {c : UInt8} (hc : isDigit base c) : IsNumber base (text ++ [c]) (n * base + charValue c) := by
  refine ⟨by simp, ?_, by rw [digitsValue_append_singleton, h.value]⟩
  intro d hd
  rcases List.mem_append.mp hd with hold | hnew
  · exact h.digits d hold
  · rw [List.mem_singleton.mp hnew]
    exact hc

theorem isNumber_hexText (n : ℕ) : IsNumber 16 (hexText n) n := by
  have hdigit : ∀ d < 16, isDigit 16 (UInt8.ofNat (Nat.digitChar d).toNat) := fun d hd => by
    simpa [isDigit, charValue_digitChar hd] using hd
  induction n using Nat.strong_induction_on with
  | _ n ih =>
    by_cases hn : n < 16
    · rw [hexText_of_lt hn]
      refine ⟨List.cons_ne_nil _ _, ?_, ?_⟩
      · intro c hc
        rw [List.mem_singleton.mp hc]
        exact hdigit n hn
      · simpa [digitsValue] using charValue_digitChar hn
    · have hmod : n % 16 < 16 := Nat.mod_lt _ (by decide)
      have hlast := isNumber_append_singleton (ih (n / 16) (by omega)) (hdigit _ hmod)
      rw [charValue_digitChar hmod, Nat.div_add_mod'] at hlast
      rw [hexText_of_le (Nat.le_of_not_lt hn)]
      exact hlast

end Codec
