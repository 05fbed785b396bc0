import Mathlib.Data.ZMod.Basic
import Mathlib.Tactic.Ring

/-!
# Rotations of machine words

A 64-bit word as a ring of bits: its positions are taken modulo 64, and a rotation is a translation
of the positions. Over the two-element field, with `^^` for addition, a word that equals the sum of
two of its rotations is determined by a recurrence, which doubles its step each time it is
substituted into itself, until the step has gone round the ring.

## Main definitions

* `Codec.bitAt` — the bits of a word

## Main results

* `eq_of_bitAt` — a word is determined by its bits
* `bitAt_rotate` — a rotation translates the positions
* `eq_false_of_recurrence` — only zero is the sum of its rotations by 1 and by 4
* `eq_false_of_ring` — only zeros solve the system of five words in a ring
-/

namespace Codec

/-- The bit at a position. -/
def bitAt (x : UInt64) (i : ZMod 64) : Bool := x.toBitVec.getLsbD (ZMod.val i)

theorem bitAt_xor (x y : UInt64) (i : ZMod 64) : bitAt (x ^^^ y) i = (bitAt x i ^^ bitAt y i) := by
  simp [bitAt]

theorem bitAt_and (x y : UInt64) (i : ZMod 64) : bitAt (x &&& y) i = (bitAt x i && bitAt y i) := by
  simp [bitAt]

theorem bitAt_not (x : UInt64) (i : ZMod 64) : bitAt (~~~ x) i = !bitAt x i := by
  have hlt : ZMod.val i < 64 := ZMod.val_lt i
  simp [bitAt, hlt]

theorem eq_of_bitAt {x y : UInt64} (h : ∀ i, bitAt x i = bitAt y i) : x = y := by
  apply UInt64.toBitVec_inj.mp
  apply BitVec.eq_of_getLsbD_eq
  intro i hi
  have hval : ZMod.val (i : ZMod 64) = i := ZMod.val_natCast_of_lt hi
  have hbit := h (i : ZMod 64)
  rwa [bitAt, bitAt, hval] at hbit

/-- An amount below 64 is shifted by as it is. -/
theorem toNat_amount {k : UInt64} (hlt : k.toNat < 64) : (k.toBitVec % 64).toNat = k.toNat :=
  Nat.mod_eq_of_lt hlt

/-- A rotation to the left by `k` translates the positions by `k`. -/
theorem bitAt_rotate {k : UInt64} (hpos : 0 < k.toNat) (hlt : k.toNat < 64) (x : UInt64)
    (i : ZMod 64) :
    bitAt ((x <<< k) ||| (x >>> (64 - k))) i = bitAt x (i - (k.toNat : ZMod 64)) := by
  have hi : ZMod.val i < 64 := ZMod.val_lt i
  have hsub : ZMod.val (i - (k.toNat : ZMod 64)) = (64 - k.toNat + ZMod.val i) % 64 := by
    have hcast : ZMod.val (k.toNat : ZMod 64) = k.toNat := ZMod.val_natCast_of_lt hlt
    calc ZMod.val (i - (k.toNat : ZMod 64))
        = (64 - ZMod.val (k.toNat : ZMod 64) + ZMod.val i) % 64 := Fin.val_sub i _
      _ = (64 - k.toNat + ZMod.val i) % 64 := by rw [hcast]
  have hrest : (64 - k).toNat = 64 - k.toNat :=
    UInt64.toNat_sub_of_le _ _ (UInt64.le_iff_toNat_le.mpr hlt.le)
  rw [bitAt, bitAt, hsub, UInt64.toBitVec_or, UInt64.toBitVec_shiftLeft, UInt64.toBitVec_shiftRight,
    BitVec.getLsbD_or, BitVec.shiftLeft_eq', BitVec.ushiftRight_eq', BitVec.getLsbD_shiftLeft,
    BitVec.getLsbD_ushiftRight, toNat_amount hlt, toNat_amount (by omega), hrest]
  -- A bit below `k` has come round from the top, the others from below.
  by_cases hround : ZMod.val i < k.toNat
  · rw [Nat.mod_eq_of_lt (by omega)]
    simp [hround]
  · have hfrom : (64 - k.toNat + ZMod.val i) % 64 = ZMod.val i - k.toNat := by omega
    have hnone : x.toBitVec.getLsbD (64 - k.toNat + ZMod.val i) = false :=
      BitVec.getLsbD_of_ge _ _ (by omega)
    simp [hround, hi, hfrom, hnone]

/-! ### Recurrences -/

/-- Substituted into itself, a recurrence has twice the step. -/
theorem recurrence_double {f : ZMod 64 → Bool} {m : ZMod 64}
    (h : ∀ i, f i = (f (i - m) ^^ f (i - 4 * m))) (i : ZMod 64) :
    f i = (f (i - 2 * m) ^^ f (i - 4 * (2 * m))) := by
  have hfirst : f (i - m) = (f (i - 2 * m) ^^ f (i - 5 * m)) := by
    rw [h (i - m)]
    ring_nf
  have hfourth : f (i - 4 * m) = (f (i - 5 * m) ^^ f (i - 4 * (2 * m))) := by
    rw [h (i - 4 * m)]
    ring_nf
  rw [h i, hfirst, hfourth, Bool.xor_assoc, ← Bool.xor_assoc (f (i - 5 * m)), Bool.xor_self,
    Bool.false_xor]

theorem recurrence_pow {f : ZMod 64 → Bool} (h : ∀ i, f i = (f (i - 1) ^^ f (i - 4))) (n : ℕ)
    (i : ZMod 64) : f i = (f (i - 2 ^ n) ^^ f (i - 4 * 2 ^ n)) := by
  induction n generalizing i with
  | zero => simpa using h i
  | succ n ih =>
    rw [pow_succ']
    exact recurrence_double ih i

/-- After six doublings the step is 64, which is none. -/
theorem eq_false_of_recurrence {f : ZMod 64 → Bool} (h : ∀ i, f i = (f (i - 1) ^^ f (i - 4)))
    (i : ZMod 64) : f i = false := by
  have hround : (2 ^ 6 : ZMod 64) = 0 := by decide
  have hsix := recurrence_pow h 6 i
  rw [hround, mul_zero, sub_zero, Bool.xor_self] at hsix
  exact hsix

/-- Five words in a ring, each the sum of the one before and of the one behind it, rotated by 1. -/
structure IsRing (c₀ c₁ c₂ c₃ c₄ : ZMod 64 → Bool) : Prop where
  h₀ : ∀ i, c₀ i = (c₄ i ^^ c₁ (i - 1))
  h₁ : ∀ i, c₁ i = (c₀ i ^^ c₂ (i - 1))
  h₂ : ∀ i, c₂ i = (c₁ i ^^ c₃ (i - 1))
  h₃ : ∀ i, c₃ i = (c₂ i ^^ c₄ (i - 1))
  h₄ : ∀ i, c₄ i = (c₃ i ^^ c₀ (i - 1))

namespace IsRing

variable {c₀ c₁ c₂ c₃ c₄ : ZMod 64 → Bool} (h : IsRing c₀ c₁ c₂ c₃ c₄)

include h

theorem rotate : IsRing c₁ c₂ c₃ c₄ c₀ := ⟨h.h₁, h.h₂, h.h₃, h.h₄, h.h₀⟩

/-- The last three words in terms of the first two. -/
theorem later (i : ZMod 64) :
    c₄ i = (c₀ i ^^ c₁ (i - 1)) ∧ c₃ i = (c₀ i ^^ c₁ (i - 1) ^^ c₀ (i - 1)) ∧
      c₂ i = (c₀ i ^^ c₁ (i - 1) ^^ c₁ (i - 2)) := by
  have hfour : ∀ i, c₄ i = (c₀ i ^^ c₁ (i - 1)) := fun i => by
    rw [h.h₀ i]
    simp
  have hthree : ∀ i, c₃ i = (c₀ i ^^ c₁ (i - 1) ^^ c₀ (i - 1)) := fun i => by
    rw [← hfour i, h.h₄ i]
    simp
  refine ⟨hfour i, hthree i, ?_⟩
  have hstep : i - 1 - 1 = i - 2 := by ring
  have htwo : c₂ i = (c₃ i ^^ c₄ (i - 1)) := by
    rw [h.h₃ i]
    simp
  rw [htwo, hthree i, hfour (i - 1), hstep]
  simp

/-- The two equations that are left. -/
theorem firstTwo (i : ZMod 64) :
    c₁ i = (c₀ i ^^ c₁ (i - 1) ^^ c₀ (i - 1) ^^ c₀ (i - 2)) ∧
      c₀ i = (c₁ i ^^ c₀ (i - 1) ^^ c₁ (i - 2) ^^ c₁ (i - 3)) := by
  have hstep : i - 1 - 1 = i - 2 := by ring
  have hstep' : i - 1 - 2 = i - 3 := by ring
  obtain ⟨-, hthree, htwo⟩ := h.later (i - 1)
  rw [hstep] at hthree htwo
  rw [hstep'] at htwo
  constructor
  · have hone : c₁ i = (c₂ i ^^ c₃ (i - 1)) := by
      rw [h.h₂ i]
      simp
    have hsum : ∀ x₀ x₁ x₂ y₁ y₂ : Bool,
        (x₀ ^^ y₁ ^^ y₂ ^^ (x₁ ^^ y₂ ^^ x₂)) = (x₀ ^^ y₁ ^^ x₁ ^^ x₂) := by decide
    rw [hone, (h.later i).2.2, hthree]
    exact hsum _ _ _ _ _
  · have hzero : c₀ i = (c₁ i ^^ c₂ (i - 1)) := by
      rw [h.h₁ i]
      simp
    rw [hzero, htwo, Bool.xor_assoc, Bool.xor_assoc, Bool.xor_assoc]

theorem recurrence (i : ZMod 64) : c₀ i = (c₀ (i - 1) ^^ c₀ (i - 4)) := by
  have hsum : ∀ x₀ x₁ x₂ x₃ x₄ x₅ y₀ y₁ y₂ y₃ y₄ : Bool,
      y₀ = (x₀ ^^ y₁ ^^ x₁ ^^ x₂) → y₂ = (x₂ ^^ y₃ ^^ x₃ ^^ x₄) → y₃ = (x₃ ^^ y₄ ^^ x₄ ^^ x₅) →
      x₀ = (y₀ ^^ x₁ ^^ y₂ ^^ y₃) → x₁ = (y₁ ^^ x₂ ^^ y₃ ^^ y₄) → x₁ = (x₂ ^^ x₅) := by decide
  -- One position further, the second equation and its rotation by 1 have sums on the right that
  -- the first one gives.
  have hnext : i + 1 - 1 = i ∧ i + 1 - 2 = i - 1 ∧ i + 1 - 3 = i - 2 := by
    refine ⟨?_, ?_, ?_⟩ <;> ring
  have hback : i - 1 - 1 = i - 2 ∧ i - 1 - 2 = i - 3 ∧ i - 2 - 1 = i - 3 ∧ i - 2 - 2 = i - 4 := by
    refine ⟨?_, ?_, ?_, ?_⟩ <;> ring
  obtain ⟨hone, hzero⟩ := h.firstTwo (i + 1)
  have hone' := (h.firstTwo (i - 1)).1
  have hone'' := (h.firstTwo (i - 2)).1
  simp only [hnext, hback] at hone hzero hone' hone''
  exact hsum _ _ _ _ _ _ _ _ _ _ _ hone hone' hone'' hzero (h.firstTwo i).2

theorem first_eq_false (i : ZMod 64) : c₀ i = false := eq_false_of_recurrence h.recurrence i

end IsRing

/-- Only zeros solve the system. -/
theorem eq_false_of_ring {c₀ c₁ c₂ c₃ c₄ : ZMod 64 → Bool} (h : IsRing c₀ c₁ c₂ c₃ c₄)
    (i : ZMod 64) :
    c₀ i = false ∧ c₁ i = false ∧ c₂ i = false ∧ c₃ i = false ∧ c₄ i = false :=
  ⟨h.first_eq_false i, h.rotate.first_eq_false i, h.rotate.rotate.first_eq_false i,
    h.rotate.rotate.rotate.first_eq_false i, h.rotate.rotate.rotate.rotate.first_eq_false i⟩

end Codec
