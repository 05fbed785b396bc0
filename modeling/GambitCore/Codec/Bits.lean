import Mathlib.Algebra.Ring.Nat
import Mathlib.Data.List.Induction

/-!
# Bit strings

Numbers as bit strings of a fixed width, the most significant bit first, the regrouping of a bit
string into numbers of another width, and the accumulator that regroups bits on the fly: a machine
word into which bits are shifted from the right and from whose upper end they are taken. The word
overflows as more bits come in, and only the bits still pending have to be in it.

## Main definitions

* `Codec.toBits`, `Codec.ofBits`
* `Codec.groups` — a bit string cut into numbers of a given width
* `Codec.shiftIn`, `Codec.takeAt` — the two operations of the accumulator

## Main results

* `ofBits_toBits`, `toBits_ofBits`
* `groups_flatMap_toBits`, `flatMap_toBits_groups` — regrouping and its inverse
* `toBits_shiftIn`, `toBits_takeAt` — what the accumulator holds
* `or_shiftLeft_byte` — a byte put in front of others in a word
-/

namespace Codec

/-- The lowest `w` bits of a number, the most significant first. -/
def toBits : ℕ → ℕ → List Bool
  | 0, _ => []
  | w + 1, n => n.testBit w :: toBits w n

/-- The number a bit string denotes. -/
def ofBits (bits : List Bool) : ℕ := bits.foldl (fun n b => 2 * n + b.toNat) 0

/-- The first `k` groups of `w` bits, as numbers. -/
def groups (w k : ℕ) (bits : List Bool) : List ℕ :=
  (List.range k).map fun i => ofBits ((bits.drop (i * w)).take w)

@[simp] theorem length_toBits (w n : ℕ) : (toBits w n).length = w := by
  induction w with
  | zero => rfl
  | succ w ih => rw [toBits, List.length_cons, ih]

theorem toBits_congr {w m n : ℕ} (h : m % 2 ^ w = n % 2 ^ w) : toBits w m = toBits w n := by
  have hbit : ∀ v ≤ w, toBits v m = toBits v n := by
    intro v hv
    induction v with
    | zero => rfl
    | succ v ih =>
      have hm := Nat.testBit_mod_two_pow m w v
      have hn := Nat.testBit_mod_two_pow n w v
      rw [h, hn] at hm
      rw [toBits, toBits, ih (Nat.le_of_succ_le hv)]
      simp only [decide_eq_true (Nat.lt_of_succ_le hv), Bool.true_and] at hm
      rw [hm]
  exact hbit w le_rfl

theorem toBits_mod (w n : ℕ) : toBits w (n % 2 ^ w) = toBits w n :=
  toBits_congr (Nat.mod_mod _ _)

theorem toBits_toNat_ofNat (n : ℕ) : toBits 8 (UInt8.ofNat n).toNat = toBits 8 n := by
  rw [UInt8.toNat_ofNat', toBits_mod]

theorem length_flatMap_toBits {α : Type*} (w : ℕ) (f : α → ℕ) (xs : List α) :
    (xs.flatMap fun x => toBits w (f x)).length = w * xs.length := by
  induction xs with
  | nil => rfl
  | cons x xs ih =>
    rw [List.flatMap_cons, List.length_append, length_toBits, ih, List.length_cons, Nat.mul_succ,
      Nat.add_comm]

/-- The upper and the lower bits. -/
theorem toBits_add (a b n : ℕ) : toBits (a + b) n = toBits a (n / 2 ^ b) ++ toBits b n := by
  induction a with
  | zero => simp [toBits]
  | succ a ih =>
    rw [Nat.succ_add, toBits, toBits, ih, Nat.testBit_div_two_pow]
    rfl

theorem take_toBits {c w : ℕ} (h : c ≤ w) (n : ℕ) :
    (toBits w n).take c = toBits c (n / 2 ^ (w - c)) := by
  have hsplit := toBits_add c (w - c) n
  rw [Nat.add_sub_cancel' h] at hsplit
  rw [hsplit, List.take_left' (length_toBits c _)]

@[simp] theorem ofBits_nil : ofBits [] = 0 := rfl

@[simp] theorem ofBits_append_singleton (bits : List Bool) (b : Bool) :
    ofBits (bits ++ [b]) = 2 * ofBits bits + b.toNat := by
  simp [ofBits]

theorem ofBits_lt (bits : List Bool) : ofBits bits < 2 ^ bits.length := by
  induction bits using List.reverseRecOn with
  | nil => simp
  | append_singleton bits b ih =>
    have hb := b.toNat_lt
    rw [ofBits_append_singleton, List.length_append, List.length_singleton, pow_succ]
    omega

theorem toBits_one (n : ℕ) : toBits 1 n = [n.testBit 0] := rfl

theorem ofBits_toBits (w n : ℕ) : ofBits (toBits w n) = n % 2 ^ w := by
  induction w generalizing n with
  | zero => simp [toBits, Nat.mod_one]
  | succ w ih =>
    have hbit : (n.testBit 0).toNat = n % 2 := by
      rw [Nat.testBit_zero]
      rcases Nat.mod_two_eq_zero_or_one n with h | h <;> simp [h]
    rw [toBits_add w 1, toBits_one, ofBits_append_singleton, ih, hbit, pow_one, pow_succ,
      Nat.mul_comm (2 ^ w) 2, Nat.mod_mul, Nat.add_comm]

theorem toBits_ofBits (bits : List Bool) : toBits bits.length (ofBits bits) = bits := by
  induction bits using List.reverseRecOn with
  | nil => rfl
  | append_singleton bits b ih =>
    have hhigh : (2 * ofBits bits + b.toNat) / 2 ^ 1 = ofBits bits := by
      have hb := b.toNat_lt
      omega
    have hlow : (2 * ofBits bits + b.toNat).testBit 0 = b := by
      rw [Nat.testBit_zero]
      cases b <;> simp
    rw [List.length_append, List.length_singleton, toBits_add, ofBits_append_singleton, hhigh, ih,
      toBits_one, hlow]

/-- A property of bytes holds of all of them if it holds of the numbers below 256. -/
theorem forall_byte {P : UInt8 → Prop} (h : ∀ n : Fin 256, P (UInt8.ofNat n.val)) (b : UInt8) :
    P b := by
  have hb := h ⟨b.toNat, b.toNat_lt⟩
  rwa [UInt8.ofNat_toNat] at hb

/-! ### Regrouping -/

theorem length_groups (w k : ℕ) (bits : List Bool) : (groups w k bits).length = k := by
  simp [groups]

theorem groups_zero (w : ℕ) (bits : List Bool) : groups w 0 bits = [] := rfl

theorem groups_succ (w k : ℕ) (bits : List Bool) :
    groups w (k + 1) bits = ofBits (bits.take w) :: groups w k (bits.drop w) := by
  rw [groups, List.range_succ_eq_map, List.map_cons, List.map_map]
  congr 1
  · simp
  · refine List.map_congr_left fun i _ => ?_
    simp only [Function.comp_apply, List.drop_drop]
    rw [Nat.succ_mul, Nat.add_comm]

/-- Numbers that were strung together are found again. -/
theorem groups_flatMap_toBits {w : ℕ} {xs : List ℕ} (h : ∀ x ∈ xs, x < 2 ^ w) (rest : List Bool) :
    groups w xs.length (xs.flatMap (toBits w) ++ rest) = xs := by
  induction xs with
  | nil => rfl
  | cons x xs ih =>
    obtain ⟨hx, hxs⟩ := List.forall_mem_cons.mp h
    rw [List.length_cons, groups_succ, List.flatMap_cons, List.append_assoc,
      List.take_left' (length_toBits w x), List.drop_left' (length_toBits w x), ofBits_toBits,
      Nat.mod_eq_of_lt hx, ih hxs]

/-- The groups of a bit string, strung together. -/
theorem flatMap_toBits_groups {w k : ℕ} {bits : List Bool} (h : k * w ≤ bits.length) :
    (groups w k bits).flatMap (toBits w) = bits.take (k * w) := by
  induction k generalizing bits with
  | zero => simp [groups_zero]
  | succ k ih =>
    rw [Nat.succ_mul] at h
    have hfirst : toBits w (ofBits (bits.take w)) = bits.take w := by
      have hlen : (bits.take w).length = w := List.length_take_of_le (by omega)
      have hread := toBits_ofBits (bits.take w)
      rwa [hlen] at hread
    rw [groups_succ, List.flatMap_cons, hfirst, ih (by rw [List.length_drop]; omega),
      Nat.succ_mul, Nat.add_comm (k * w) w, List.take_add]

/-! ### The accumulator -/

/-- `val << w + x` in a machine word. -/
def shiftIn (w : ℕ) (val : BitVec 32) (x : ℕ) : BitVec 32 := (val <<< w) + BitVec.ofNat 32 x

/-- `(val >> n) & mask` in a machine word with a sign, for a mask of `g` ones. -/
def takeAt (g n : ℕ) (val : BitVec 32) : ℕ :=
  ((val.sshiftRight n) &&& BitVec.ofNat 32 (2 ^ g - 1)).toNat

/-- Bits shifted in stand behind those that were pending. -/
theorem toBits_shiftIn {w n x : ℕ} (hfits : n + w ≤ 32) (hx : x < 2 ^ w) (val : BitVec 32) :
    toBits (n + w) (shiftIn w val x).toNat = toBits n val.toNat ++ toBits w x := by
  have hval : (shiftIn w val x).toNat = (val.toNat * 2 ^ w + x) % 2 ^ 32 := by
    rw [shiftIn, BitVec.toNat_add, BitVec.toNat_shiftLeft, BitVec.toNat_ofNat, Nat.shiftLeft_eq,
      ← Nat.add_mod]
  -- Of the word only the lowest `n + w` bits matter.
  have hmod : (shiftIn w val x).toNat % 2 ^ (n + w) = (val.toNat * 2 ^ w + x) % 2 ^ (n + w) := by
    rw [hval, Nat.mod_mod_of_dvd _ (Nat.pow_dvd_pow 2 hfits)]
  have hhigh : (val.toNat * 2 ^ w + x) / 2 ^ w = val.toNat := by
    rw [Nat.add_comm, Nat.add_mul_div_right _ _ (Nat.two_pow_pos w), Nat.div_eq_of_lt hx,
      Nat.zero_add]
  have hlow : (val.toNat * 2 ^ w + x) % 2 ^ w = x % 2 ^ w := by
    rw [Nat.add_comm, Nat.add_mul_mod_self_right]
  rw [toBits_congr hmod, toBits_add, hhigh, toBits_congr hlow]

theorem takeAt_eq {g n : ℕ} (hfits : n + g ≤ 32) (val : BitVec 32) :
    takeAt g n val = val.toNat / 2 ^ n % 2 ^ g := by
  have hmask : (BitVec.ofNat 32 (2 ^ g - 1)).toNat = 2 ^ g - 1 := by
    have hpow : 2 ^ g ≤ 2 ^ 32 := Nat.pow_le_pow_right (by decide) (by omega)
    have hpos : 0 < 2 ^ g := Nat.two_pow_pos g
    rw [BitVec.toNat_ofNat]
    exact Nat.mod_eq_of_lt (by omega)
  apply Nat.eq_of_testBit_eq
  intro i
  rw [takeAt, BitVec.toNat_and, hmask, Nat.testBit_and, Nat.testBit_two_pow_sub_one,
    Nat.testBit_mod_two_pow, Nat.testBit_div_two_pow, Bool.and_comm]
  by_cases hi : i < g
  · -- The sign is not reached.
    have hshift : (val.sshiftRight n).toNat.testBit i = val.toNat.testBit (n + i) := by
      have hbit := BitVec.getLsbD_sshiftRight (x := val) (s := n) (i := i)
      rw [if_pos (by omega)] at hbit
      simpa [BitVec.getLsbD, Nat.not_le.mpr (show i < 32 by omega)] using hbit
    simp only [hi, decide_true, Bool.true_and]
    rw [hshift, Nat.add_comm]
  · simp [hi]

/-- Bits taken stood before those that stay pending. -/
theorem toBits_takeAt {g n : ℕ} (hfits : n + g ≤ 32) (val : BitVec 32) :
    toBits (g + n) val.toNat = toBits g (takeAt g n val) ++ toBits n val.toNat := by
  rw [toBits_add, takeAt_eq hfits, toBits_mod]

/-- A byte put in front of others in a word that has room for it. -/
theorem or_shiftLeft_byte (b : UInt8) {w k lo : ℕ} (hk : k + 8 ≤ w) (hlo : lo < 2 ^ k) :
    b.toNat <<< k % 2 ^ w ||| lo = b.toNat * 2 ^ k + lo := by
  have hb : b.toNat < 2 ^ 8 := b.toNat_lt
  have hfits : b.toNat * 2 ^ k < 2 ^ w := calc
    b.toNat * 2 ^ k < 2 ^ 8 * 2 ^ k := Nat.mul_lt_mul_of_pos_right hb (Nat.two_pow_pos k)
    _ = 2 ^ (8 + k) := (Nat.pow_add 2 8 k).symm
    _ ≤ 2 ^ w := Nat.pow_le_pow_right (by decide) (by omega)
  rw [Nat.shiftLeft_eq, Nat.mod_eq_of_lt hfits, Nat.mul_comm, ← Nat.two_pow_add_eq_or_of_lt hlo]

end Codec
