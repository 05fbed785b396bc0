import Mathlib.Data.Nat.Digits.Defs
import Mathlib.Data.Nat.Digits.Lemmas
import Mathlib.Tactic.Ring

/-!
# Big-endian byte strings

The minimal base-256 representation of a natural number, most significant byte
first, and its reader. The reader accepts any byte string, leading zeros
included; the writer never produces one. Digit arithmetic is Mathlib's
`Nat.digits`, turned around so that concatenation on the right appends the least
significant byte.

## Main definitions

* `Codec.bigEndian` — the minimal big-endian bytes of a number
* `Codec.ofBigEndian` — the number a byte string denotes

## Main results

* `ofBigEndian_bigEndian` — reading back what was written
* `eq_of_bytes_eq` — a number is determined by its bytes
* `length_bigEndian_le` — a number below `256 ^ k` needs at most `k` bytes
-/

namespace Codec

/-- The minimal big-endian bytes of `n`; zero is the empty string. -/
def bigEndian (n : ℕ) : List UInt8 :=
  (Nat.digits 256 n).reverse.map UInt8.ofNat

/-- The number denoted by a big-endian byte string. -/
def ofBigEndian (bs : List UInt8) : ℕ :=
  bs.foldl (fun v b => v * 256 + b.toNat) 0

@[simp] theorem bigEndian_zero : bigEndian 0 = [] := by simp [bigEndian]

/-- The last byte is the remainder, what precedes it is the quotient. -/
theorem bigEndian_of_pos {n : ℕ} (hn : 0 < n) :
    bigEndian n = bigEndian (n / 256) ++ [UInt8.ofNat (n % 256)] := by
  simp [bigEndian, Nat.digits_def' (by norm_num : 1 < 256) hn]

@[simp] theorem ofBigEndian_nil : ofBigEndian [] = 0 := rfl

@[simp] theorem ofBigEndian_append_singleton (bs : List UInt8) (b : UInt8) :
    ofBigEndian (bs ++ [b]) = ofBigEndian bs * 256 + b.toNat := by
  simp [ofBigEndian]

/-- The first byte counts for the places behind it. -/
theorem ofBigEndian_cons (b : UInt8) (bs : List UInt8) :
    ofBigEndian (b :: bs) = b.toNat * 256 ^ bs.length + ofBigEndian bs := by
  induction bs using List.reverseRecOn with
  | nil => simp [ofBigEndian]
  | append_singleton bs c ih =>
    rw [← List.cons_append, ofBigEndian_append_singleton, ih, ofBigEndian_append_singleton,
      List.length_append, List.length_singleton, pow_succ]
    ring

/-- Reading back what was written. -/
theorem ofBigEndian_bigEndian (n : ℕ) : ofBigEndian (bigEndian n) = n := by
  induction n using Nat.strong_induction_on with
  | _ n ih =>
    rcases Nat.eq_zero_or_pos n with rfl | hn
    · simp
    -- The last byte is peeled off; the quotient is smaller.
    · have hdiv : n / 256 < n := Nat.div_lt_self hn (by norm_num)
      rw [bigEndian_of_pos hn, ofBigEndian_append_singleton, ih _ hdiv]
      have hmod : n % 256 < 2 ^ 8 := Nat.mod_lt _ (by norm_num)
      rw [UInt8.toNat_ofNat', Nat.mod_eq_of_lt hmod]
      omega

/-- `k` bytes denote a number below `256 ^ k`. -/
theorem ofBigEndian_lt (bs : List UInt8) : ofBigEndian bs < 256 ^ bs.length := by
  induction bs using List.reverseRecOn with
  | nil => simp
  | append_singleton bs b ih =>
    have hb : b.toNat < 2 ^ 8 := b.toNat_lt
    rw [ofBigEndian_append_singleton, List.length_append, List.length_singleton, pow_succ]
    omega

/-- Numbers below `256 ^ k` with the same `k` bytes are equal. -/
theorem eq_of_bytes_eq {k m n : ℕ} (hm : m < 256 ^ k) (hn : n < 256 ^ k)
    (h : ∀ i < k, m / 256 ^ i % 256 = n / 256 ^ i % 256) : m = n := by
  induction k generalizing m n with
  | zero => omega
  | succ k ih =>
    have hlow : m % 256 = n % 256 := by simpa using h 0 (Nat.succ_pos k)
    have hhigh : m / 256 = n / 256 := by
      refine ih (Nat.div_lt_of_lt_mul ?_) (Nat.div_lt_of_lt_mul ?_) fun i hi => ?_
      · rwa [← pow_succ']
      · rwa [← pow_succ']
      · rw [Nat.div_div_eq_div_mul, Nat.div_div_eq_div_mul, ← pow_succ']
        exact h (i + 1) (Nat.succ_lt_succ hi)
    omega

/-- A number below `256 ^ k` needs at most `k` bytes. -/
theorem length_bigEndian_le {n k : ℕ} (hn : n < 256 ^ k) : (bigEndian n).length ≤ k := by
  rw [bigEndian, List.length_map, List.length_reverse]
  exact (Nat.digits_length_le_iff (by norm_num) n).mpr hn

theorem bigEndian_ne_nil {n : ℕ} (hn : 0 < n) : bigEndian n ≠ [] := by
  rw [bigEndian_of_pos hn]
  simp

end Codec
