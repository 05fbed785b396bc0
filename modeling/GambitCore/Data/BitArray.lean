import GambitCore.Codec.Bits
import Mathlib.Data.Nat.Bitwise
import Mathlib.Data.Set.Insert

/-!
# Arrays of bits

A byte array as an array of bits: bit `v` is bit `v % 8`, counted from the least significant, of
byte `v / 8`. The bits that are set form a set of numbers, into which writing a bit inserts its
number, and which determines an array of a given length. So writing bits in any order and any number
of times adds the set of their numbers.

## Main definitions

* `BitArray.testBit`, `BitArray.setBit`, `BitArray.setAll`
* `BitArray.bits` — the set bits

## Main results

* `bits_setBit`, `bits_setAll` — writing a bit, and a list of bits
* `eq_of_bits_eq` — the set bits determine the array
-/

namespace BitArray

variable {a b : List UInt8} {v : ℕ}

/-- Bit `v` of the array; outside the array no bit is set. -/
def testBit (a : List UInt8) (v : ℕ) : Bool := (a[v / 8]?.getD 0).toNat.testBit (v % 8)

/-- The array with bit `v` set. -/
def setBit (a : List UInt8) (v : ℕ) : List UInt8 :=
  a.modify (v / 8) fun c => c ||| 1 <<< UInt8.ofNat (v % 8)

/-- The array with all of the bits set. -/
def setAll (a : List UInt8) (vs : List ℕ) : List UInt8 := vs.foldl setBit a

/-- The bits that are set. -/
def bits (a : List UInt8) : Set ℕ := {v | testBit a v = true}

@[simp] theorem mem_bits : v ∈ bits a ↔ testBit a v = true := Iff.rfl

@[simp] theorem length_setBit : (setBit a v).length = a.length := List.length_modify _ _ _

@[simp] theorem length_setAll (vs : List ℕ) : (setAll a vs).length = a.length := by
  induction vs generalizing a with
  | nil => rfl
  | cons v vs ih => rw [setAll, List.foldl_cons, ← setAll, ih, length_setBit]

/-- A mask of one bit adds that bit to a byte. -/
theorem testBit_or_mask (c : UInt8) {k : ℕ} (hk : k < 8) (j : ℕ) :
    (c ||| 1 <<< UInt8.ofNat k).toNat.testBit j = (decide (k = j) || c.toNat.testBit j) := by
  have hmask : ∀ k < 8, ((1 : UInt8) <<< UInt8.ofNat k).toNat = 2 ^ k := by decide
  rw [UInt8.toNat_or, Nat.testBit_or, hmask k hk, Nat.testBit_two_pow, Bool.or_comm]

theorem testBit_setBit (hv : v < 8 * a.length) (w : ℕ) :
    testBit (setBit a v) w = (decide (w = v) || testBit a w) := by
  rw [testBit, testBit, setBit, List.getElem?_modify]
  by_cases hbyte : v / 8 = w / 8
  · -- The same byte: the bit is there or in the mask.
    have hlt : w / 8 < a.length := by omega
    have hbit : (v % 8 = w % 8) = (w = v) := by
      apply propext
      omega
    simp only [hbyte, if_true, List.getElem?_eq_getElem hlt, Option.map_eq_map, Option.map_some,
      Option.getD_some, testBit_or_mask _ (Nat.mod_lt v (by decide)), hbit]
  · have hne : w ≠ v := fun h => hbyte (by rw [h])
    simp only [hbyte, if_false, hne, decide_false, Bool.false_or, Option.map_eq_map,
      Option.map_id']

/-- Writing a bit inserts its number. -/
theorem bits_setBit (hv : v < 8 * a.length) : bits (setBit a v) = insert v (bits a) := by
  ext w
  simp [testBit_setBit hv]

/-- Writing bits adds their numbers. -/
theorem bits_setAll {vs : List ℕ} (hvs : ∀ v ∈ vs, v < 8 * a.length) :
    bits (setAll a vs) = bits a ∪ {v | v ∈ vs} := by
  induction vs generalizing a with
  | nil =>
    ext w
    simp [setAll]
  | cons v vs ih =>
    rw [List.forall_mem_cons] at hvs
    have hrest := ih (a := setBit a v) (by simpa using hvs.2)
    rw [setAll, List.foldl_cons, ← setAll, hrest, bits_setBit hvs.1]
    ext w
    simp only [Set.mem_union, Set.mem_insert_iff, Set.mem_ofPred_eq, List.mem_cons]
    tauto

/-- A byte is determined by its eight bits. -/
theorem byte_eq_of_testBit_eq {c d : UInt8} (h : ∀ j < 8, c.toNat.testBit j = d.toNat.testBit j) :
    c = d := by
  apply UInt8.toNat_inj.mp
  apply Nat.eq_of_testBit_eq
  intro j
  rcases Nat.lt_or_ge j 8 with hj | hj
  · exact h j hj
  · have hpow : 2 ^ 8 ≤ 2 ^ j := Nat.pow_le_pow_right (by decide) hj
    rw [Nat.testBit_lt_two_pow (Nat.lt_of_lt_of_le c.toNat_lt hpow),
      Nat.testBit_lt_two_pow (Nat.lt_of_lt_of_le d.toNat_lt hpow)]

/-- The set bits determine an array of a given length. -/
theorem eq_of_bits_eq (hlen : a.length = b.length) (h : bits a = bits b) : a = b := by
  apply List.ext_getElem hlen
  intro i ha hb
  apply byte_eq_of_testBit_eq
  intro j hj
  have hbit : (8 * i + j ∈ bits a) = (8 * i + j ∈ bits b) := by rw [h]
  have hdiv : (8 * i + j) / 8 = i := by omega
  have hmod : (8 * i + j) % 8 = j := by omega
  simp only [mem_bits, testBit, hdiv, hmod, List.getElem?_eq_getElem ha,
    List.getElem?_eq_getElem hb, Option.getD_some] at hbit
  exact Bool.eq_iff_iff.mpr (iff_of_eq hbit)

end BitArray
