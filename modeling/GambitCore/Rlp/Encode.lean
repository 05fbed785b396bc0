import GambitCore.Basic
import GambitCore.Codec.BigEndian

/-!
# RLP encoding

The encoders of `rlp.cpp`, and the reader `toUint` that `Transaction::fromHex` and the
two block decoders each repeat for integer fields. Lengths are `size_t` values, so
the byte loop runs over a 64-bit word and ends after at most eight rounds.

## Main definitions

* `Rlp.encodeLength`, `Rlp.encodeBytes`, `Rlp.encodeUint`, `Rlp.encodeList`
* `Rlp.toUint` — the shift-accumulate integer reader
* `Rlp.Item` — the trees the format describes, with their encoding

## Main results

* `minimalBytes_eq_bigEndian` — the byte loop computes the minimal big-endian form
* `toUint_bigEndian` — the reader recovers every 64-bit value from it
-/

namespace Gambit.Rlp

open Codec

/-- The `while (v > 0)` loop shared by `encodeLength` and `encodeUint`: the low byte is
inserted in front of `out`, then shifted away. -/
def minimalBytes : ℕ → UInt64 → Bytes → Bytes
  | 0, _, out => out
  | fuel + 1, v, out =>
    if v > 0 then minimalBytes fuel (v >>> 8) ((v &&& 0xFF).toUInt8 :: out) else out

/-- `encodeLength`. -/
def encodeLength (len : UInt64) (offset : UInt8) : Bytes :=
  if len < 56 then [offset + len.toUInt8]
  else
    -- Eight rounds empty a 64-bit length.
    let lenBytes := minimalBytes 8 len []
    (offset + 55 + (size lenBytes).toUInt8) :: lenBytes

/-- `encodeBytes`: a single byte below `0x80` is its own encoding. -/
def encodeBytes : Bytes → Bytes
  | [b] => if b < 0x80 then [b] else encodeLength (size [b]) 0x80 ++ [b]
  | input => encodeLength (size input) 0x80 ++ input

/-- `encodeString`. -/
def encodeString (input : Str) : Bytes := encodeBytes input

/-- `encodeUint`. -/
def encodeUint (value : UInt64) : Bytes :=
  if value = 0 then [0x80] else encodeBytes (minimalBytes 8 value [])

/-- `encodeList`, over items that are already encoded. -/
def encodeList (items : List Bytes) : Bytes :=
  encodeLength (size items.flatten) 0xC0 ++ items.flatten

/-- The `toUint` lambda of the decoders. -/
def toUint (b : Bytes) : UInt64 := b.foldl (fun v c => (v <<< 8) ||| c.toUInt64) 0

/-! ### Integers -/

/-- A 64-bit word shifted left by a byte leaves room for the byte. -/
theorem toNat_shiftLeft_or (v : UInt64) (c : UInt8) :
    ((v <<< 8) ||| c.toUInt64).toNat = (v.toNat * 256 + c.toNat) % 2 ^ 64 := by
  have hc : c.toNat < 2 ^ 8 := c.toNat_lt
  -- The shifted word is a multiple of 256, so the byte is or-ed into zeros.
  have hdvd : v.toNat * 2 ^ 8 % 2 ^ 64 = 2 ^ 8 * (v.toNat % 2 ^ 56) := by omega
  rw [UInt64.toNat_or, UInt64.toNat_shiftLeft, UInt8.toNat_toUInt64]
  rw [show (8 : UInt64).toNat % 64 = 8 from rfl, Nat.shiftLeft_eq, hdvd,
    ← Nat.two_pow_add_eq_or_of_lt hc]
  omega

theorem toUint_append_singleton (b : Bytes) (c : UInt8) :
    toUint (b ++ [c]) = (toUint b <<< 8) ||| c.toUInt64 := by
  simp [toUint]

/-- The reader computes the big-endian value modulo `2 ^ 64`. -/
theorem toNat_toUint (b : Bytes) : (toUint b).toNat = ofBigEndian b % 2 ^ 64 := by
  induction b using List.reverseRecOn with
  | nil => rfl
  | append_singleton b c ih =>
    rw [toUint_append_singleton, toNat_shiftLeft_or, ih, ofBigEndian_append_singleton]
    omega

/-- The reader recovers every 64-bit value from its minimal form. -/
theorem toUint_bigEndian (v : UInt64) : toUint (bigEndian v.toNat) = v := by
  apply UInt64.toNat_inj.mp
  rw [toNat_toUint, ofBigEndian_bigEndian]
  exact Nat.mod_eq_of_lt v.toNat_lt

/-- Integers with equal minimal forms are equal. -/
theorem bigEndian_inj {v w : UInt64} : bigEndian v.toNat = bigEndian w.toNat ↔ v = w := by
  constructor
  · intro h
    rw [← toUint_bigEndian v, h, toUint_bigEndian]
  · rintro rfl
    rfl

theorem toNat_shiftRight_byte (v : UInt64) : (v >>> 8).toNat = v.toNat / 256 := by
  rw [UInt64.toNat_shiftRight, show (8 : UInt64).toNat % 64 = 8 from rfl, Nat.shiftRight_eq_div_pow]

theorem toUInt8_lowByte (v : UInt64) : (v &&& 0xFF).toUInt8 = UInt8.ofNat (v.toNat % 256) := by
  apply UInt8.toNat_inj.mp
  have hand : v.toNat &&& 255 = v.toNat % 2 ^ 8 := Nat.and_two_pow_sub_one_eq_mod _ 8
  rw [UInt64.toNat_toUInt8, UInt64.toNat_and, UInt8.toNat_ofNat',
    show (0xFF : UInt64).toNat = 255 from rfl, hand]
  norm_num

/-- The byte loop computes the minimal big-endian form of a value it has rounds for. -/
theorem minimalBytes_eq_bigEndian {fuel : ℕ} {v : UInt64} (hv : v.toNat < 256 ^ fuel)
    (out : Bytes) : minimalBytes fuel v out = bigEndian v.toNat ++ out := by
  induction fuel generalizing v out with
  | zero =>
    have hzero : v.toNat = 0 := by simpa using hv
    simp [minimalBytes, hzero]
  | succ fuel ih =>
    rw [minimalBytes]
    split
    · next hpos =>
      have hpos' : 0 < v.toNat := by simpa [UInt64.lt_iff_toNat_lt] using hpos
      -- One round fewer is enough for what is left after the shift.
      have hshift : (v >>> 8).toNat < 256 ^ fuel := by
        rw [toNat_shiftRight_byte]
        rw [pow_succ] at hv
        exact Nat.div_lt_of_lt_mul (by omega)
      rw [ih hshift, toNat_shiftRight_byte, toUInt8_lowByte, bigEndian_of_pos hpos']
      simp
    · next hpos =>
      have hzero : v.toNat = 0 := by
        simpa [UInt64.lt_iff_toNat_lt] using hpos
      simp [hzero]

theorem minimalBytes_eight (v : UInt64) : minimalBytes 8 v [] = bigEndian v.toNat := by
  have hv : v.toNat < 256 ^ 8 := lt_of_lt_of_eq v.toNat_lt (by norm_num)
  simpa using minimalBytes_eq_bigEndian hv []

/-- An integer is the byte string of its minimal form, zero included. -/
theorem encodeUint_eq (v : UInt64) : encodeUint v = encodeBytes (bigEndian v.toNat) := by
  unfold encodeUint
  split
  · next hv =>
    rw [hv]
    rfl
  · rw [minimalBytes_eight]

/-! ### Trees -/

/-- An RLP value: a byte string, or a list of values. -/
inductive Item
  | bytes (b : Bytes)
  | list (items : List Item)

namespace Item

mutual

/-- `encodeBytes` on leaves, `encodeList` over the encodings of the children. -/
def encode : Item → Bytes
  | .bytes b => encodeBytes b
  | .list items => encodeList (encodeEach items)

/-- The encodings of the children. -/
def encodeEach : List Item → List Bytes
  | [] => []
  | t :: ts => t.encode :: encodeEach ts

end

theorem encodeEach_eq_map (ts : List Item) : encodeEach ts = ts.map encode := by
  induction ts with
  | nil => rfl
  | cons t ts ih => simp [encodeEach, ih]

end Item

/-! ### Headers -/

theorem length_minimalBytes_le (v : UInt64) : (minimalBytes 8 v []).length ≤ 8 := by
  rw [minimalBytes_eight]
  exact length_bigEndian_le (lt_of_lt_of_eq v.toNat_lt (by norm_num))

theorem encodeLength_ne_nil (len : UInt64) (offset : UInt8) : encodeLength len offset ≠ [] := by
  unfold encodeLength
  split <;> simp

/-- A header is one byte and at most eight bytes of length. -/
theorem length_encodeLength_le (len : UInt64) (offset : UInt8) :
    (encodeLength len offset).length ≤ 9 := by
  unfold encodeLength
  split
  · simp
  · exact Nat.succ_le_succ (length_minimalBytes_le len)

theorem encodeBytes_ne_nil (b : Bytes) : encodeBytes b ≠ [] := by
  unfold encodeBytes
  split
  · split <;> simp
  · simp [encodeLength_ne_nil]

theorem encodeList_ne_nil (items : List Bytes) : encodeList items ≠ [] := by
  simp [encodeList, encodeLength_ne_nil]

theorem Item.encode_ne_nil (t : Item) : t.encode ≠ [] := by
  cases t with
  | bytes b => exact encodeBytes_ne_nil b
  | list items => exact encodeList_ne_nil _

/-- An item is a part of the list that holds it. -/
theorem Item.length_encode_lt {t : Item} {ts : List Item} (h : t ∈ ts) :
    t.encode.length < (Item.list ts).encode.length := by
  have hpayload : t.encode.length ≤ (ts.map Item.encode).flatten.length :=
    (List.sublist_flatten_of_mem (List.mem_map_of_mem h)).length_le
  have hheader := List.length_pos_iff.mpr
    (encodeLength_ne_nil (size (ts.map Item.encode).flatten) 0xC0)
  rw [Item.encode, Item.encodeEach_eq_map, encodeList, List.length_append]
  omega

theorem length_encodeBytes_le (b : Bytes) : (encodeBytes b).length ≤ b.length + 9 := by
  unfold encodeBytes
  split
  · next b =>
    split
    · simp
    · have hheader := length_encodeLength_le (size [b]) 0x80
      rw [List.length_append]
      omega
  · have hheader := length_encodeLength_le (size b) 0x80
    rw [List.length_append]
    omega

theorem length_encodeUint_le (v : UInt64) : (encodeUint v).length ≤ 17 := by
  have hbytes : (bigEndian v.toNat).length ≤ 8 :=
    length_bigEndian_le (lt_of_lt_of_eq v.toNat_lt (by norm_num))
  have henc := length_encodeBytes_le (bigEndian v.toNat)
  rw [encodeUint_eq]
  omega

theorem length_encodeList_le (items : List Bytes) :
    (encodeList items).length ≤ items.flatten.length + 9 := by
  have hheader := length_encodeLength_le (size items.flatten) 0xC0
  rw [encodeList, List.length_append]
  omega

theorem length_le_encodeBytes (b : Bytes) : b.length ≤ (encodeBytes b).length := by
  unfold encodeBytes
  split
  · split <;> simp
  · simp

end Gambit.Rlp
