import Mathlib.Data.List.DropRight
import Mathlib.Data.Nat.Digits.Lemmas
import GambitCore.Codec.Sponge
import GambitCore.Hash.Permutation

/-!
# Where two texts can collide

`keccak_256` as a sponge: the full blocks of the input and the padded rest are absorbed one by one,
and 32 bytes are squeezed out of the state they leave. Nothing on the way loses a bit. The rounds
are a permutation, a block can be told from what it does to a state, the padding can be undone, and
the bytes of a lane are the lane. What is left are the ways in which two texts can have one hash:
two sequences of blocks reach one state, at a block that makes one state out of two or because the
state has come back to zeros, or else the states differ in lanes that are not squeezed.

Texts with the same full blocks, such as all those below 136 bytes, have only the last way left.

## Main definitions

* `Keccak.sponge`, `Keccak.blocks` — the hash as a sponge, and what it absorbs
* `Keccak.OuterCollision` — two states that differ in what is not squeezed

## Main results

* `keccak256_eq_squeeze` — the sponge is `keccak256`
* `sponge_sound` — its permutation and its absorption are injective
* `keccak256_eq_iff` — the ways in which two texts have one hash
-/

namespace Gambit

namespace Keccak

/-! ### Lanes and their bytes -/

/-- A lane is read as a number with its bytes for digits, the lowest first. -/
theorem toNat_loadLane {b : Bytes} (h : b.length ≤ 8) :
    (loadLane b).toNat = Nat.ofDigits 256 (b.map UInt8.toNat) := by
  induction b with
  | nil => rfl
  | cons c b ih =>
    have hlen : b.length ≤ 7 := Nat.le_of_succ_le_succ h
    have hrest := ih (Nat.le_succ_of_le hlen)
    -- Seven bytes leave room for the shift.
    have hbound : (loadLane b).toNat < 256 ^ 7 := by
      rw [hrest]
      refine lt_of_lt_of_le (Nat.ofDigits_lt_base_pow_length (by norm_num) ?_)
        (Nat.pow_le_pow_right (by norm_num) ((List.length_map _).trans_le hlen))
      intro d hd
      obtain ⟨e, -, rfl⟩ := List.mem_map.mp hd
      exact e.toNat_lt
    have hshift : (loadLane b).toNat <<< 8 % 2 ^ 64 = 2 ^ 8 * (loadLane b).toNat := by
      rw [Nat.shiftLeft_eq, Nat.mul_comm, Nat.mod_eq_of_lt (by omega)]
    calc (loadLane (c :: b)).toNat
        = ((loadLane b).toNat <<< 8 % 2 ^ 64) ||| c.toNat := by
          rw [loadLane, List.foldr_cons, UInt64.toNat_or, UInt64.toNat_shiftLeft,
            UInt8.toNat_toUInt64]
          rfl
      _ = 2 ^ 8 * (loadLane b).toNat + c.toNat := by
          rw [hshift, ← Nat.two_pow_add_eq_or_of_lt c.toNat_lt]
      _ = Nat.ofDigits 256 ((c :: b).map UInt8.toNat) := by
          rw [List.map_cons, Nat.ofDigits_cons, hrest]
          omega

/-- Eight bytes can be told from the lane they are loaded into. -/
theorem loadLane_inj {b c : Bytes} (hb : b.length = 8) (hc : c.length = 8)
    (h : loadLane b = loadLane c) : b = c := by
  have hdigits : ∀ {b : Bytes}, ∀ d ∈ b.map UInt8.toNat, d < 256 := by
    intro b d hd
    obtain ⟨e, -, rfl⟩ := List.mem_map.mp hd
    exact e.toNat_lt
  have hvalue : Nat.ofDigits 256 (b.map UInt8.toNat) = Nat.ofDigits 256 (c.map UInt8.toNat) := by
    rw [← toNat_loadLane hb.le, ← toNat_loadLane hc.le, h]
  have hmap := Nat.ofDigits_inj_of_len_eq (by norm_num) (by simp [hb, hc]) hdigits hdigits hvalue
  exact List.map_injective_iff.mpr (fun _ _ => UInt8.toNat_inj.mp) hmap

/-- The bytes of a lane, as they are squeezed. -/
def laneBytes (x : UInt64) : Bytes :=
  (List.range 8).map fun j => (x >>> UInt64.ofNat (8 * j)).toUInt8

theorem laneBytes_injective : Function.Injective laneBytes := by
  intro x y h
  apply UInt64.toNat_inj.mp
  apply Nat.eq_of_testBit_eq
  intro i
  by_cases hi : i < 64
  · -- Bit `i` is in byte `i / 8`.
    have hbyte := List.map_inj_left.mp h (i / 8) (List.mem_range.mpr (by omega))
    have hamount : (UInt64.ofNat (8 * (i / 8))).toNat % 64 = 8 * (i / 8) := by
      rw [UInt64.toNat_ofNat']
      omega
    have hbit := congrArg (fun c => c.toNat.testBit (i % 8)) hbyte
    simp only [UInt64.toNat_toUInt8, UInt64.toNat_shiftRight, hamount, Nat.testBit_mod_two_pow,
      Nat.testBit_shiftRight, Nat.div_add_mod] at hbit
    simpa [Nat.mod_lt] using hbit
  · have hle : 2 ^ 64 ≤ 2 ^ i := Nat.pow_le_pow_right (by norm_num) (by omega)
    rw [Nat.testBit_lt_two_pow (lt_of_lt_of_le x.toNat_lt hle),
      Nat.testBit_lt_two_pow (lt_of_lt_of_le y.toNat_lt hle)]

/-- Pieces of one length can be told from their concatenation. -/
theorem eq_of_flatMap_eq {f g : ℕ → Bytes} (hlen : ∀ i, (f i).length = (g i).length) {l : List ℕ}
    (h : l.flatMap f = l.flatMap g) : ∀ i ∈ l, f i = g i := by
  induction l with
  | nil => simp
  | cons j l ih =>
    rw [List.flatMap_cons, List.flatMap_cons] at h
    obtain ⟨hhead, htail⟩ := List.append_inj h (hlen j)
    intro i hi
    rcases List.mem_cons.mp hi with rfl | hi
    · exact hhead
    · exact ih htail i hi

/-- The first four lanes can be told from the hash. -/
theorem squeeze_eq_iff {st st' : List UInt64} :
    squeeze st = squeeze st' ↔ ∀ i < 4, lane st i = lane st' i := by
  have hbytes : ∀ st, squeeze st = (List.range 4).flatMap fun i => laneBytes (lane st i) :=
    fun _ => rfl
  rw [hbytes, hbytes]
  constructor
  · intro h i hi
    have hlanes := eq_of_flatMap_eq (fun i => by simp [laneBytes]) h
    exact laneBytes_injective (hlanes i (List.mem_range.mpr hi))
  · intro h
    rw [List.flatMap_def, List.flatMap_def]
    exact congrArg _ (List.map_congr_left fun i hi => by rw [h i (List.mem_range.mp hi)])

/-! ### Absorbing a block -/

/-- The blocks of the rate. -/
def rateBlocks : Set Bytes := {b | b.length = rsiz}

theorem absorb_mem (st : List UInt64) (block : Bytes) : absorb st block ∈ states := by
  simp [states, absorb]

/-- A block can be told from what it does to a state. -/
theorem absorb_injOn (st : List UInt64) : Set.InjOn (absorb st) rateBlocks := by
  intro b hb c hc h
  have hb' : b.length = 136 := hb
  have hc' : c.length = 136 := hc
  have hword : ∀ i < 17, (b.drop (i * 8)).take 8 = (c.drop (i * 8)).take 8 := by
    intro i hi
    have hlane := List.map_inj_left.mp h i (List.mem_range.mpr (by omega))
    have hrate : i < rsiz / 8 := hi
    rw [if_pos hrate, if_pos hrate, UInt64.xor_right_inj] at hlane
    refine loadLane_inj ?_ ?_ hlane <;> simp [hb', hc'] <;> omega
  -- Byte `i` is in word `i / 8`.
  apply List.ext_getElem?
  intro i
  by_cases hi : i < 136
  · have hbyte := congrArg (·[i % 8]?) (hword (i / 8) (by omega))
    have hindex : i / 8 * 8 + i % 8 = i := Nat.div_add_mod' i 8
    have hlt : i % 8 < 8 := Nat.mod_lt i (by norm_num)
    simpa only [List.getElem?_take_of_lt hlt, List.getElem?_drop, hindex] using hbyte
  · rw [List.getElem?_eq_none (by omega), List.getElem?_eq_none (by omega)]

/-! ### Padding -/

/-- The last block before the mark on its last byte. -/
def unmarked (rest : Bytes) : Bytes := rest ++ 0x01 :: List.replicate (rsiz - 1 - rest.length) 0

theorem length_unmarked {rest : Bytes} (h : rest.length < rsiz) :
    (unmarked rest).length = rsiz := by
  rw [unmarked, List.length_append, List.length_cons, List.length_replicate]
  omega

theorem padded_eq (rest : Bytes) :
    padded rest = (unmarked rest).set (rsiz - 1) ((unmarked rest).getD (rsiz - 1) 0 ||| 0x80) := rfl

theorem padded_mem {rest : Bytes} (h : rest.length < rsiz) : padded rest ∈ rateBlocks :=
  (List.length_set ..).trans (length_unmarked h)

/-- The mark can be taken away again. -/
theorem set_padded {rest : Bytes} (h : rest.length < rsiz) :
    (padded rest).set (rsiz - 1) ((padded rest).getD (rsiz - 1) 0 ^^^ 0x80) = unmarked rest := by
  have hlen := length_unmarked h
  have hindex : rsiz - 1 < (unmarked rest).length := by
    rw [hlen]
    decide
  -- The byte under the mark is the end mark or a zero.
  have hbyte : ((unmarked rest).getD (rsiz - 1) 0 ||| 0x80) ^^^ 0x80 =
      (unmarked rest).getD (rsiz - 1) 0 := by
    rw [unmarked, List.getD_append_right _ _ _ _ (by omega)]
    cases rsiz - 1 - rest.length with
    | zero => rfl
    | succ k =>
      rw [List.getD_cons_succ, List.getD_replicate _ (Nat.lt_succ_self k)]
      rfl
  have hget : (padded rest).getD (rsiz - 1) 0 = (unmarked rest).getD (rsiz - 1) 0 ||| 0x80 := by
    rw [padded_eq, List.getD_eq_getElem?_getD, List.getElem?_set_self hindex, Option.getD_some]
  rw [hget, hbyte, padded_eq, List.set_set, List.getD_eq_getElem _ _ hindex]
  exact List.set_getElem_self hindex

theorem padded_inj {rest rest' : Bytes} (h : rest.length < rsiz) (h' : rest'.length < rsiz)
    (heq : padded rest = padded rest') : rest = rest' := by
  -- Behind the end mark there are only zeros, whatever the rest ends with.
  have hstrip : ∀ (r : Bytes) (k : ℕ),
      (r ++ 0x01 :: List.replicate k 0).rdropWhile (· == 0) = r ++ [0x01] := by
    intro r k
    induction k with
    | zero => exact List.rdropWhile_concat_neg _ _ _ (by decide)
    | succ k ih =>
      rw [List.replicate_succ', ← List.cons_append, ← List.append_assoc,
        List.rdropWhile_concat_pos _ _ _ (by decide), ih]
  have hmarked := set_padded h
  rw [heq, set_padded h'] at hmarked
  have hrests := congrArg (List.rdropWhile (· == 0)) hmarked
  rw [unmarked, unmarked, hstrip, hstrip] at hrests
  exact (List.append_cancel_right hrests).symm

/-! ### The sponge -/

/-- The full blocks of an input. -/
def fullBlocks : ℕ → Bytes → List Bytes
  | 0, _ => []
  | n + 1, input => input.take rsiz :: fullBlocks n (input.drop rsiz)

/-- What is left after the full blocks. -/
def rest (input : Bytes) : Bytes := input.drop (input.length / rsiz * rsiz)

/-- All that is absorbed. -/
def blocks (input : Bytes) : List Bytes :=
  fullBlocks (input.length / rsiz) input ++ [padded (rest input)]

def sponge : Sponge (List UInt64) Bytes where
  permute := keccakf
  absorb := absorb
  start := List.replicate 25 0

theorem sponge_sound : sponge.Sound states rateBlocks where
  start_mem := rfl
  mapsTo := keccakf_mapsTo
  injOn := keccakf_injOn
  absorb_mem := fun st _ b _ => absorb_mem st b
  absorb_injOn := fun st _ => absorb_injOn st

theorem absorbFull_eq (n : ℕ) (st : List UInt64) (input : Bytes) :
    absorbFull n st input =
      ((fullBlocks n input).foldl (fun st b => keccakf (absorb st b)) st,
        input.drop (n * rsiz)) := by
  induction n generalizing st input with
  | zero => simp [absorbFull, fullBlocks]
  | succ n ih =>
    rw [absorbFull, ih, fullBlocks, List.foldl_cons, List.drop_drop]
    congr 2
    ring

theorem fullBlocks_flatten (n : ℕ) (input : Bytes) :
    (fullBlocks n input).flatten = input.take (n * rsiz) := by
  induction n generalizing input with
  | zero => simp [fullBlocks]
  | succ n ih =>
    rw [fullBlocks, List.flatten_cons, ih, Nat.succ_mul, Nat.add_comm, List.take_add]

/-- The full blocks are cut from the front of the input. -/
theorem fullBlocks_take (n : ℕ) (input : Bytes) :
    fullBlocks n (input.take (n * rsiz)) = fullBlocks n input := by
  induction n generalizing input with
  | zero => rfl
  | succ n ih =>
    have hle : rsiz ≤ (n + 1) * rsiz := Nat.le_mul_of_pos_left _ n.succ_pos
    have hrest : (n + 1) * rsiz - rsiz = n * rsiz := by rw [Nat.succ_mul, Nat.add_sub_cancel]
    rw [fullBlocks, fullBlocks, List.take_take, Nat.min_eq_left hle, List.drop_take, hrest, ih]

theorem mem_rateBlocks_of_mem_fullBlocks {n : ℕ} {input : Bytes} (h : n * rsiz ≤ input.length) :
    ∀ b ∈ fullBlocks n input, b ∈ rateBlocks := by
  induction n generalizing input with
  | zero => simp [fullBlocks]
  | succ n ih =>
    rw [Nat.succ_mul] at h
    intro b hb
    rcases List.mem_cons.mp hb with rfl | hb
    · exact (List.length_take).trans (by omega)
    · exact ih (by rw [List.length_drop]; omega) b hb

theorem length_rest_lt (input : Bytes) : (rest input).length < rsiz := by
  have hmod := Nat.mod_lt input.length (show 0 < rsiz by decide)
  have hdiv := Nat.div_add_mod' input.length rsiz
  rw [rest, List.length_drop]
  omega

theorem mem_rateBlocks_of_mem_blocks {input b : Bytes} (hb : b ∈ blocks input) :
    b ∈ rateBlocks := by
  rcases List.mem_append.mp hb with hb | hb
  · exact mem_rateBlocks_of_mem_fullBlocks (Nat.div_mul_le_self _ _) b hb
  · rw [List.mem_singleton.mp hb]
    exact padded_mem (length_rest_lt input)

/-- A text can be told from its blocks. -/
theorem blocks_injective : Function.Injective blocks := by
  intro x y h
  obtain ⟨hfull, hlast⟩ := List.append_inj' h rfl
  have hrest : rest x = rest y :=
    padded_inj (length_rest_lt x) (length_rest_lt y) (List.singleton_inj.mp hlast)
  have hflat := congrArg List.flatten hfull
  rw [fullBlocks_flatten, fullBlocks_flatten] at hflat
  rw [← List.take_append_drop (x.length / rsiz * rsiz) x, hflat]
  exact (congrArg _ hrest).trans (List.take_append_drop _ y)

theorem keccak256_eq_squeeze (input : Bytes) :
    keccak256 input = squeeze (sponge.after (blocks input)) := by
  rw [keccak256, absorbFull_eq, blocks, Sponge.after_concat]
  rfl

/-- Texts whose last blocks alone differ leave different states. -/
theorem eq_of_after_eq {x y : Bytes}
    (hfull : x.take (x.length / rsiz * rsiz) = y.take (y.length / rsiz * rsiz))
    (h : sponge.after (blocks x) = sponge.after (blocks y)) : x = y := by
  have hcount : x.length / rsiz = y.length / rsiz := by
    have hlen := congrArg List.length hfull
    rw [List.length_take_of_le (Nat.div_mul_le_self _ _),
      List.length_take_of_le (Nat.div_mul_le_self _ _)] at hlen
    exact Nat.eq_of_mul_eq_mul_right (by decide) hlen
  have hblocks : fullBlocks (x.length / rsiz) x = fullBlocks (y.length / rsiz) y := by
    rw [← fullBlocks_take, hfull, hcount, fullBlocks_take]
  have hstate : sponge.after (fullBlocks (y.length / rsiz) y) ∈ states :=
    sponge_sound.after_mem (mem_rateBlocks_of_mem_fullBlocks (Nat.div_mul_le_self _ _))
  rw [blocks, blocks, hblocks, Sponge.after_concat, Sponge.after_concat] at h
  -- Back through the last permutation, and through the block absorbed before it.
  have habsorb := sponge_sound.injOn (absorb_mem _ _) (absorb_mem _ _) h
  have hlast : padded (rest x) = padded (rest y) :=
    sponge_sound.absorb_injOn _ hstate (padded_mem (length_rest_lt x))
      (padded_mem (length_rest_lt y)) habsorb
  apply blocks_injective
  rw [blocks, blocks, hblocks, hlast]

/-- The states differ, but not in the lanes that are squeezed. -/
def OuterCollision (x y : Bytes) : Prop :=
  sponge.after (blocks x) ≠ sponge.after (blocks y) ∧
    ∀ i < 4, lane (sponge.after (blocks x)) i = lane (sponge.after (blocks y)) i

theorem squeeze_after_eq_iff (x y : Bytes) :
    squeeze (sponge.after (blocks x)) = squeeze (sponge.after (blocks y)) ↔
      sponge.after (blocks x) = sponge.after (blocks y) ∨ OuterCollision x y := by
  rw [squeeze_eq_iff, OuterCollision]
  constructor
  · intro h
    exact (em _).imp_right fun hne => ⟨hne, h⟩
  · rintro (h | h)
    · simp [h]
    · exact h.2

end Keccak

open Keccak in
/-- Two texts have one hash if they are one text, if the state that one of them leaves has come back
to zeros on the way, if a block makes one state out of two, or if the states they leave agree in the
four lanes that are squeezed. Texts with the same full blocks leave different states. -/
theorem keccak256_eq_iff (x y : Bytes) :
    (keccak256 x = keccak256 y ↔
      x = y ∨ sponge.Returns (blocks x) (blocks y) ∨ sponge.Returns (blocks y) (blocks x) ∨
        sponge.InnerCollision (blocks x) (blocks y) ∨ OuterCollision x y) ∧
    (x.take (x.length / rsiz * rsiz) = y.take (y.length / rsiz * rsiz) →
      (keccak256 x = keccak256 y ↔ x = y ∨ OuterCollision x y)) := by
  have hmem : ∀ x, ∀ b ∈ blocks x, b ∈ rateBlocks := fun _ _ => mem_rateBlocks_of_mem_blocks
  have hstates := sponge_sound.after_eq_iff (hmem x) (hmem y)
  rw [blocks_injective.eq_iff] at hstates
  rw [keccak256_eq_squeeze, keccak256_eq_squeeze, squeeze_after_eq_iff]
  constructor
  · rw [hstates]
    tauto
  · intro hfull
    have hsame : sponge.after (blocks x) = sponge.after (blocks y) ↔ x = y :=
      ⟨eq_of_after_eq hfull, fun h => by rw [h]⟩
    rw [hsame]

end Gambit
