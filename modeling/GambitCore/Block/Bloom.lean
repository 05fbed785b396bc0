import GambitCore.Block.Basic
import GambitCore.Data.BitArray

/-!
# The bloom filter

`Bloom` of `bloom.cpp`: 2048 bits, of which an item sets the three its hash chooses. Reads of the
hash and writes to the array go through checked accesses, so that a call that returns has stayed
inside both.

A filter after a sequence of calls is described by the set of its bits: those of the filter before
and those of each item added. The order of the calls, their repetitions and the form in which an
item is given leave no trace.

## Main definitions

* `Bloom.add`, `Bloom.addHex` — the two overloads
* `Bloom.positions` — the three bits of an item
* `Bloom.run`, `Bloom.Added` — a sequence of calls, and the items it adds

## Main results

* `Bloom.add_eq` — what a call sets
* `Bloom.bits_run` — the bits after a sequence of calls
* `Bloom.run_eq_union` — the filter is the union of the bits of its items
-/

namespace Gambit.Bloom

/-! ### The calls -/

/-- `bits[byteIndex] |= bit`. -/
def orAt (bloom : Bloom) (byteIndex : UInt64) (bit : UInt8) : Result Bloom :=
  if byteIndex.toNat < 256 then
    .ok ⟨bloom.bits.val.modify byteIndex.toNat (· ||| bit),
      (List.length_modify _ _ _).trans bloom.bits.property⟩
  else .error .outOfBounds

/-- One round of the loop of `add`, over the hash of the item. -/
def addRound (h : Bytes) (bloom : Bloom) (i : UInt64) : Result Bloom := do
  let high ← readAt h (2 * i)
  let low ← readAt h (2 * i + 1)
  let v : UInt16 := ((high.toUInt16 <<< 8) ||| low.toUInt16) &&& 2047
  bloom.orAt (v >>> 3).toUInt64 (1 <<< (v &&& 7)).toUInt8

/-- `add(data)`. -/
def add (bloom : Bloom) (data : Bytes) : Result Bloom :=
  let h := keccak256 data
  [0, 1, 2].foldlM (addRound h) bloom

/-- `add(hex)`. -/
def addHex (bloom : Bloom) (hex : Str) : Result Bloom := do
  let d ← fromHex hex
  bloom.add d

/-! ### The bits of an item -/

/-- The number of the bit that two bytes of a hash choose. -/
def position (high low : UInt8) : ℕ := (256 * high.toNat + low.toNat) % 2048

/-- The bit that round `i` sets for an item. -/
def roundPosition (data : Bytes) (i : ℕ) : ℕ :=
  position ((keccak256 data).getD (2 * i) 0) ((keccak256 data).getD (2 * i + 1) 0)

/-- The three bits of an item. -/
def positions (data : Bytes) : List ℕ := [0, 1, 2].map (roundPosition data)

theorem position_lt (high low : UInt8) : position high low < 2048 := Nat.mod_lt _ (by decide)

theorem lt_of_mem_positions {data : Bytes} {w : ℕ} (h : w ∈ positions data) : w < 2048 := by
  obtain ⟨k, -, rfl⟩ := List.mem_map.mp h
  exact position_lt _ _

/-- The filter with the bits set as well. -/
def setBits (bloom : Bloom) (ws : List ℕ) : Bloom :=
  ⟨BitArray.setAll bloom.bits.val ws, (BitArray.length_setAll ws).trans bloom.bits.property⟩

/-- The word of a round holds the number of its bit. -/
theorem toNat_word (high low : UInt8) :
    (((high.toUInt16 <<< 8) ||| low.toUInt16) &&& 2047).toNat = position high low := by
  have hlow : low.toNat < 2 ^ 8 := low.toNat_lt
  simp only [UInt16.toNat_and, UInt16.toNat_or, UInt16.toNat_shiftLeft, UInt8.toNat_toUInt16,
    UInt16.reduceToNat, Nat.reduceMod]
  rw [Codec.or_shiftLeft_byte high (by decide) hlow, Nat.mul_comm, position]
  exact Nat.and_two_pow_sub_one_eq_mod _ 11

/-- The write of a round sets the bit of its word. -/
theorem orAt_word (bloom : Bloom) {v : UInt16} (hv : v.toNat < 2048) :
    bloom.orAt (v >>> 3).toUInt64 (1 <<< (v &&& 7)).toUInt8 = .ok (bloom.setBits [v.toNat]) := by
  have hmask : ∀ k < 8, ((1 : UInt16) <<< UInt16.ofNat k).toUInt8 = 1 <<< UInt8.ofNat k := by decide
  have hindex : (v >>> 3).toUInt64.toNat = v.toNat / 8 := by
    simp [Nat.shiftRight_eq_div_pow]
  have hbit : v &&& 7 = UInt16.ofNat (v.toNat % 8) := by
    have hsmall : v.toNat % 8 < 2 ^ 16 := by omega
    apply UInt16.toNat_inj.mp
    rw [UInt16.toNat_and, UInt16.toNat_ofNat_of_lt' hsmall]
    exact Nat.and_two_pow_sub_one_eq_mod v.toNat 3
  rw [orAt, if_pos (by omega)]
  simp only [hindex, hbit, hmask _ (Nat.mod_lt v.toNat (by decide : 0 < 8)), setBits,
    BitArray.setAll, List.foldl_cons, List.foldl_nil, BitArray.setBit]

theorem addRound_eq {h : Bytes} (bloom : Bloom) {i : UInt64} {high low : UInt8}
    (hhigh : readAt h (2 * i) = .ok high) (hlow : readAt h (2 * i + 1) = .ok low) :
    addRound h bloom i = .ok (bloom.setBits [position high low]) := by
  have hv := toNat_word high low
  have hlt := position_lt high low
  rw [addRound, hhigh, hlow]
  simp only [bind, Except.bind]
  rw [orAt_word bloom (by rw [hv]; exact hlt), hv]

theorem readAt_keccak256 (data : Bytes) {k : UInt64} {n : ℕ} (hk : k.toNat = n) (hn : n < 32) :
    readAt (keccak256 data) k = .ok ((keccak256 data).getD n 0) := by
  have hlt : n < (keccak256 data).length := by rwa [length_keccak256]
  rw [readAt, hk, List.getElem?_eq_getElem hlt, List.getD_eq_getElem _ _ hlt]

/-- A round that stays inside the hash sets its bit. -/
theorem addRound_keccak256 (bloom : Bloom) (data : Bytes) {i : ℕ} (hi : i < 16) :
    addRound (keccak256 data) bloom (UInt64.ofNat i) =
      .ok (bloom.setBits [roundPosition data i]) := by
  have hround : (2 * UInt64.ofNat i).toNat = 2 * i := by
    rw [UInt64.toNat_mul, UInt64.toNat_ofNat_of_lt' (Nat.lt_trans hi (by decide))]
    simp only [UInt64.reduceToNat]
    omega
  have hnext : (2 * UInt64.ofNat i + 1).toNat = 2 * i + 1 := by
    rw [UInt64.toNat_add, hround]
    simp only [UInt64.reduceToNat]
    omega
  exact addRound_eq bloom (readAt_keccak256 data hround (by omega))
    (readAt_keccak256 data hnext (by omega))

theorem foldlM_addRound (bloom : Bloom) (data : Bytes) {is : List ℕ} (his : ∀ i ∈ is, i < 16) :
    (is.map UInt64.ofNat).foldlM (addRound (keccak256 data)) bloom =
      .ok (bloom.setBits (is.map (roundPosition data))) := by
  induction is generalizing bloom with
  | nil => rfl
  | cons i is ih =>
    rw [List.forall_mem_cons] at his
    rw [List.map_cons, List.foldlM_cons, addRound_keccak256 bloom data his.1]
    exact ih _ his.2

/-- A call returns, with the three bits of its item set. -/
theorem add_eq (bloom : Bloom) (data : Bytes) :
    bloom.add data = .ok (bloom.setBits (positions data)) :=
  foldlM_addRound bloom data (by decide : ∀ i ∈ [0, 1, 2], i < 16)

/-! ### Sequences of calls -/

/-- A call of either overload. -/
inductive Call
  | bytes (data : Bytes)
  | hex (text : Str)

/-- The call on a filter. -/
def call (bloom : Bloom) : Call → Result Bloom
  | .bytes data => bloom.add data
  | .hex text => bloom.addHex text

/-- The byte string a call adds, if its text is read. -/
def Call.item : Call → Result Bytes
  | .bytes data => .ok data
  | .hex text => fromHex text

/-- The filter a call leaves. One that throws has not come to its writes. -/
def after (bloom : Bloom) (c : Call) : Bloom :=
  match bloom.call c with
  | .ok bloom' => bloom'
  | .error _ => bloom

/-- The filter a sequence of calls leaves. -/
def run (bloom : Bloom) (calls : List Call) : Bloom := calls.foldl after bloom

/-- A sequence of calls adds a byte string. -/
def Added (calls : List Call) (data : Bytes) : Prop := ∃ c ∈ calls, c.item = .ok data

/-- The bit is set. -/
def testBit (bloom : Bloom) (w : ℕ) : Bool := BitArray.testBit bloom.bits.val w

theorem call_eq (bloom : Bloom) (c : Call) :
    bloom.call c = (fun data => bloom.setBits (positions data)) <$> c.item := by
  cases c with
  | bytes data => exact bloom.add_eq data
  | hex text =>
    rw [call, addHex, Call.item]
    cases fromHex text with
    | error e => rfl
    | ok data => exact bloom.add_eq data

theorem bits_setBits (bloom : Bloom) {ws : List ℕ} (hws : ∀ w ∈ ws, w < 2048) :
    BitArray.bits (bloom.setBits ws).bits.val = BitArray.bits bloom.bits.val ∪ {w | w ∈ ws} := by
  apply BitArray.bits_setAll
  rw [bloom.bits.property]
  exact hws

/-- A call adds the bits of its item, if it has one. -/
theorem bits_after (bloom : Bloom) (c : Call) :
    BitArray.bits (bloom.after c).bits.val =
      BitArray.bits bloom.bits.val ∪ {w | ∃ data, c.item = .ok data ∧ w ∈ positions data} := by
  rw [after, call_eq]
  cases c.item with
  | error e =>
    ext w
    simp [Functor.map, Except.map]
  | ok data =>
    have hlt : ∀ w ∈ positions data, w < 2048 := fun _ => lt_of_mem_positions
    simpa [Functor.map, Except.map] using bloom.bits_setBits hlt

/-- A sequence of calls adds the bits of all of its items. -/
theorem bits_run (bloom : Bloom) (calls : List Call) :
    BitArray.bits (bloom.run calls).bits.val =
      BitArray.bits bloom.bits.val ∪ {w | ∃ data, Added calls data ∧ w ∈ positions data} := by
  induction calls generalizing bloom with
  | nil =>
    ext w
    simp [run, Added]
  | cons c calls ih =>
    have hrun : bloom.run (c :: calls) = (bloom.after c).run calls := rfl
    have hadded (data : Bytes) :
        Added (c :: calls) data ↔ c.item = .ok data ∨ Added calls data := by
      simp [Added]
    rw [hrun, ih, bits_after]
    ext w
    simp only [Set.mem_union, Set.mem_ofPred_eq, hadded, or_and_right, exists_or, or_assoc]

/-- The filter is the union of the bits of its items. Two sequences of calls that add the same byte
strings leave the same filter; a bit is set afterwards exactly when it was set before or is one of
the three bits of an item; every call on bytes returns, so that its reads and writes are in range;
and every hexadecimal text of a byte string adds that byte string. -/
theorem run_eq_union (bloom : Bloom) :
    (∀ calls calls' : List Call, (∀ data, Added calls data ↔ Added calls' data) →
      bloom.run calls = bloom.run calls') ∧
    (∀ (calls : List Call) (w : ℕ), (bloom.run calls).testBit w = true ↔
      bloom.testBit w = true ∨ ∃ data, Added calls data ∧ w ∈ positions data) ∧
    (∀ data, Returns (bloom.add data) ∧ (positions data).length = 3 ∧
      ∀ w ∈ positions data, w / 8 < 256) ∧
    ∀ (text digits : Str) (data : Bytes), IsHexText text digits →
      digits.map toLower = toHex data → bloom.addHex text = bloom.add data := by
  refine ⟨fun calls calls' h => ?_, fun calls w => ?_,
    fun data => ⟨⟨_, bloom.add_eq data⟩, rfl, ?_⟩, fun text digits data htext hdigits => ?_⟩
  · have hbits : BitArray.bits (bloom.run calls).bits.val =
        BitArray.bits (bloom.run calls').bits.val := by
      rw [bits_run, bits_run]
      simp only [h]
    have hval := BitArray.eq_of_bits_eq
      ((bloom.run calls).bits.property.trans (bloom.run calls').bits.property.symm) hbits
    exact congrArg Bloom.mk (Subtype.ext hval)
  · exact Set.ext_iff.mp (bloom.bits_run calls) w
  · intro w hw
    have hlt := lt_of_mem_positions hw
    omega
  · rw [addHex, htext.fromHex_eq_ok_iff.mpr hdigits.symm]
    rfl

end Gambit.Bloom
