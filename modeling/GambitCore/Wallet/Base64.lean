import GambitCore.Basic
import GambitCore.Codec.Bits

/-!
# Base 64

`base64Encode` and `base64Decode` of `wallet.cpp`. Both shift what they read into an `int` from the
right, count the bits that are pending, and take groups of the other width from the upper end of
those. The `int` is never cleared and overflows after a few bytes; it is taken as a word of 32 bits,
and the pending bits are always inside it.

## Main definitions

* `base64Encode`, `base64Decode`

## Main results

* `base64Encode_eq` — the text is that of the bits in groups of six, filled up with zeros and `=`
* `decodeLoop_map` — the decoder returns the bits of the characters in groups of eight
* `base64Decode_base64Encode` — decoding undoes encoding
-/

namespace Gambit.Wallet

open Codec

/-- `base64_chars`. -/
def base64Chars : Str :=
  str "ABCDEFGHIJKLMNOPQRSTUVWXYZabcdefghijklmnopqrstuvwxyz0123456789+/"

/-- `base64_chars[i]`. -/
def base64Char (i : ℕ) : UInt8 := base64Chars.getD i 0

/-- The `while (valb >= 6)` loop: the bits left, and the text. -/
def flush (val : BitVec 32) : ℕ → Str → ℕ × Str
  | valb + 6, ret => flush val valb (ret ++ [base64Char (takeAt 6 valb val)])
  | valb, ret => (valb, ret)

/-- One byte of the input, on `val`, `valb` and `ret`. -/
def encodeByte (s : BitVec 32 × ℕ × Str) (c : UInt8) : BitVec 32 × ℕ × Str :=
  let val := shiftIn 8 s.1 c.toNat
  (val, flush val (s.2.1 + 8) s.2.2)

/-- `base64Encode`. -/
def base64Encode (data : Bytes) : Str :=
  let (val, valb, ret) := data.foldl encodeByte (0, 0, [])
  let ret := if valb > 0 then ret ++ [base64Char ((val <<< (6 - valb)) &&& 0x3F).toNat] else ret
  -- The last loop fills up to a multiple of four.
  ret ++ List.replicate ((4 - ret.length % 4) % 4) 61

/-- The table `T`, with none for `-1`. -/
@[irreducible] def base64Index (c : UInt8) : Option ℕ := base64Chars.idxOf? c

/-- The loop of `base64Decode`, which ends at the first character not in the table. -/
def decodeLoop : Str → BitVec 32 → ℕ → Bytes → Bytes
  | [], _, _, ret => ret
  | c :: cs, val, valb, ret =>
    match base64Index c with
    | none => ret
    | some t =>
      let val := shiftIn 6 val t
      let valb := valb + 6
      if valb ≥ 8 then
        decodeLoop cs val (valb - 8) (ret ++ [UInt8.ofNat (takeAt 8 (valb - 8) val)])
      else decodeLoop cs val valb ret

/-- `base64Decode`. -/
def base64Decode (text : Str) : Bytes := decodeLoop text 0 0 []

/-! ### Bits of a byte string -/

/-- The bits of a byte string. -/
def bytesBits (bs : Bytes) : List Bool := bs.flatMap fun b => toBits 8 b.toNat

theorem bytesBits_append_singleton (bs : Bytes) (b : UInt8) :
    bytesBits (bs ++ [b]) = bytesBits bs ++ toBits 8 b.toNat := by
  simp [bytesBits]

@[simp] theorem length_bytesBits (bs : Bytes) : (bytesBits bs).length = 8 * bs.length :=
  length_flatMap_toBits 8 UInt8.toNat bs

theorem bytesBits_injective : Function.Injective bytesBits := by
  intro bs cs h
  have hread : ∀ ds : Bytes, groups 8 ds.length (bytesBits ds) = ds.map UInt8.toNat := by
    intro ds
    have hlt : ∀ n ∈ ds.map UInt8.toNat, n < 2 ^ 8 := by simpa using fun b _ => b.toNat_lt
    have hgroups := groups_flatMap_toBits hlt []
    simpa [bytesBits, List.flatMap_map] using hgroups
  have hlen : bs.length = cs.length := by
    have hbits := congrArg List.length h
    simp only [length_bytesBits] at hbits
    omega
  have hmap := hread bs
  rw [h, hlen, hread cs] at hmap
  exact (List.map_injective_iff.mpr fun _ _ => UInt8.toNat_inj.mp) hmap.symm

/-- Byte strings with the same bits, up to less than a byte at the end. -/
theorem eq_of_bytesBits_append {bs cs : Bytes} {us vs : List Bool} (hus : us.length < 8)
    (hvs : vs.length < 8) (h : bytesBits bs ++ us = bytesBits cs ++ vs) : bs = cs := by
  have hlen := congrArg List.length h
  simp only [List.length_append, length_bytesBits] at hlen
  have hbits : (bytesBits bs).length = (bytesBits cs).length := by
    simp only [length_bytesBits]
    omega
  exact bytesBits_injective (List.append_inj_left h hbits)

/-! ### Encoding -/

/-- Sextets and pending bits together are what was pending. -/
theorem flush_eq {val : BitVec 32} {valb : ℕ} (hfits : valb ≤ 32) (ret : Str) :
    ∃ xs : List ℕ, (∀ x ∈ xs, x < 64) ∧ (flush val valb ret).1 < 6 ∧
      (flush val valb ret).2 = ret ++ xs.map base64Char ∧
      xs.flatMap (toBits 6) ++ toBits (flush val valb ret).1 val.toNat = toBits valb val.toNat := by
  fun_induction flush val valb ret with
  | case1 valb ret ih =>
    -- The group taken now stands before those that the rest of the loop takes.
    obtain ⟨xs, hlt, hrest, htext, hbits⟩ := ih (by omega)
    refine ⟨takeAt 6 valb val :: xs, ?_, hrest, ?_, ?_⟩
    · rw [List.forall_mem_cons, takeAt_eq (by omega)]
      exact ⟨Nat.mod_lt _ (by decide), hlt⟩
    · rw [htext, List.append_assoc]
      rfl
    · have hsplit := toBits_takeAt (g := 6) (n := valb) (by omega) val
      rw [Nat.add_comm] at hsplit
      rw [List.flatMap_cons, List.append_assoc, hbits]
      exact hsplit.symm
  | case2 valb ret hvalb =>
    refine ⟨[], by simp, ?_, by simp, by simp⟩
    by_contra hge
    exact hvalb (valb - 6) (by omega)

/-- The state after some bytes: their bits are in the text, and the rest is pending. -/
def Encoded (bs : Bytes) (s : BitVec 32 × ℕ × Str) : Prop :=
  ∃ xs : List ℕ, (∀ x ∈ xs, x < 64) ∧ s.2.1 < 6 ∧ s.2.2 = xs.map base64Char ∧
    xs.flatMap (toBits 6) ++ toBits s.2.1 s.1.toNat = bytesBits bs

theorem Encoded.encodeByte {bs : Bytes} {s : BitVec 32 × ℕ × Str} (h : Encoded bs s) (c : UInt8) :
    Encoded (bs ++ [c]) (encodeByte s c) := by
  obtain ⟨val, valb, ret⟩ := s
  obtain ⟨xs, hlt, hvalb, rfl, hbits⟩ := h
  dsimp only at hvalb hbits
  obtain ⟨ys, hlt', hvalb', htext, hbits'⟩ :=
    @flush_eq (shiftIn 8 val c.toNat) (valb + 8) (by omega) (xs.map base64Char)
  refine ⟨xs ++ ys, ?_, hvalb', ?_, ?_⟩
  · exact List.forall_mem_append.mpr ⟨hlt, hlt'⟩
  · rw [List.map_append]
    exact htext
  · rw [List.flatMap_append, List.append_assoc]
    rw [Wallet.encodeByte, hbits', toBits_shiftIn (by omega) c.toNat_lt, ← List.append_assoc, hbits,
      bytesBits_append_singleton]

theorem encoded_foldl (bs : Bytes) : Encoded bs (bs.foldl encodeByte (0, 0, [])) := by
  induction bs using List.reverseRecOn with
  | nil => exact ⟨[], by simp, by decide, rfl, rfl⟩
  | append_singleton bs c ih =>
    rw [List.foldl_append]
    exact ih.encodeByte c

/-- The last character holds the pending bits and zeros. -/
theorem toBits_last {val : BitVec 32} {valb : ℕ} (hvalb : valb < 6) :
    toBits 6 ((val <<< (6 - valb)) &&& 0x3F).toNat =
      toBits valb val.toNat ++ toBits (6 - valb) 0 := by
  have hmask : ((val <<< (6 - valb)) &&& 0x3F).toNat = (val <<< (6 - valb)).toNat % 2 ^ 6 := by
    rw [BitVec.toNat_and]
    exact Nat.and_two_pow_sub_one_eq_mod _ 6
  have hword : val <<< (6 - valb) = shiftIn (6 - valb) val 0 := by simp [shiftIn]
  have hshift := toBits_shiftIn (n := valb) (w := 6 - valb) (x := 0) (by omega)
    (Nat.two_pow_pos _) val
  rw [Nat.add_sub_cancel' (Nat.le_of_lt hvalb)] at hshift
  rw [hmask, toBits_mod, hword, hshift]

/-- The text of a byte string: its bits in groups of six, filled up with zeros, and `=` behind. -/
theorem base64Encode_eq (data : Bytes) :
    ∃ (xs : List ℕ) (fill : List Bool) (n : ℕ), (∀ x ∈ xs, x < 64) ∧ fill.length < 6 ∧
      base64Encode data = xs.map base64Char ++ List.replicate n 61 ∧
      xs.flatMap (toBits 6) = bytesBits data ++ fill := by
  have hencoded := encoded_foldl data
  unfold base64Encode
  generalize data.foldl encodeByte (0, 0, []) = s at hencoded ⊢
  obtain ⟨val, valb, ret⟩ := s
  obtain ⟨xs, hlt, hvalb, rfl, hbits⟩ := hencoded
  dsimp only at hvalb hbits ⊢
  by_cases hpending : valb > 0
  · have hmap : xs.map base64Char ++ [base64Char ((val <<< (6 - valb)) &&& 0x3F).toNat] =
        (xs ++ [((val <<< (6 - valb)) &&& 0x3F).toNat]).map base64Char := by
      rw [List.map_append]
      rfl
    rw [if_pos hpending, hmap]
    refine ⟨_, toBits (6 - valb) 0, _, ?_, ?_, rfl, ?_⟩
    · rw [List.forall_mem_append, List.forall_mem_singleton]
      refine ⟨hlt, ?_⟩
      rw [BitVec.toNat_and]
      exact Nat.lt_of_le_of_lt Nat.and_le_right (by decide)
    · rw [length_toBits]
      omega
    · rw [List.flatMap_append, List.flatMap_singleton, toBits_last hvalb, ← List.append_assoc,
        hbits]
  · obtain rfl : valb = 0 := by omega
    rw [if_neg hpending]
    refine ⟨xs, [], _, hlt, by decide, rfl, ?_⟩
    rw [List.append_nil, ← hbits]
    exact (List.append_nil _).symm

/-! ### Decoding -/

theorem base64Index_base64Char {x : ℕ} (hx : x < 64) : base64Index (base64Char x) = some x := by
  have hall : ∀ y : Fin 64, base64Index (base64Char y.val) = some y.val := by decide +kernel
  exact hall ⟨x, hx⟩

theorem base64Index_equals : base64Index 61 = none := by decide +kernel

/-- The loop ends at an `=`. -/
theorem decodeLoop_replicate (n : ℕ) (val : BitVec 32) (valb : ℕ) (ret : Bytes) :
    decodeLoop (List.replicate n 61) val valb ret = ret := by
  cases n with
  | zero => rfl
  | succ n => simp only [List.replicate_succ, decodeLoop, base64Index_equals]

/-- The bytes returned and what stays pending are the bits of the characters, behind those that were
pending. -/
theorem decodeLoop_map {xs : List ℕ} (hlt : ∀ x ∈ xs, x < 64) (n : ℕ) {val : BitVec 32} {valb : ℕ}
    (hvalb : valb < 8) (ret : Bytes) :
    ∃ (bs : Bytes) (rest : List Bool), rest.length < 8 ∧
      decodeLoop (xs.map base64Char ++ List.replicate n 61) val valb ret = ret ++ bs ∧
      bytesBits bs ++ rest = toBits valb val.toNat ++ xs.flatMap (toBits 6) := by
  induction xs generalizing val valb ret with
  | nil =>
    refine ⟨[], toBits valb val.toNat, by rwa [length_toBits], ?_, ?_⟩
    · rw [List.map_nil, List.nil_append, decodeLoop_replicate, List.append_nil]
    · rw [List.flatMap_nil, List.append_nil]
      rfl
  | cons x xs ih =>
    obtain ⟨hx, hxs⟩ := List.forall_mem_cons.mp hlt
    have hshift := toBits_shiftIn (n := valb) (show valb + 6 ≤ 32 by omega)
      (show x < 2 ^ 6 from hx) val
    rw [List.map_cons, List.cons_append, decodeLoop, base64Index_base64Char hx]
    dsimp only
    -- With this character a byte is full, or fewer than eight bits are still pending.
    split
    · next hfull =>
      obtain ⟨bs, rest, hrest, hloop, hbits⟩ := @ih hxs (shiftIn 6 val x)
        (valb + 6 - 8) (by omega)
        (ret ++ [UInt8.ofNat (takeAt 8 (valb + 6 - 8) (shiftIn 6 val x))])
      refine ⟨UInt8.ofNat (takeAt 8 (valb + 6 - 8) (shiftIn 6 val x)) :: bs, rest, hrest, ?_, ?_⟩
      · rw [hloop, List.append_assoc]
        rfl
      · have htake := toBits_takeAt (g := 8) (n := valb + 6 - 8) (by omega) (shiftIn 6 val x)
        rw [Nat.add_sub_cancel' hfull, hshift] at htake
        rw [bytesBits, List.flatMap_cons, ← bytesBits, List.append_assoc, hbits, toBits_toNat_ofNat,
          ← List.append_assoc, ← htake, List.append_assoc, List.flatMap_cons]
    · next hshort =>
      obtain ⟨bs, rest, hrest, hloop, hbits⟩ := @ih hxs (shiftIn 6 val x)
        (valb + 6) (by omega) ret
      refine ⟨bs, rest, hrest, hloop, ?_⟩
      rw [hbits, hshift, List.flatMap_cons, List.append_assoc]

/-- Decoding undoes encoding. -/
theorem base64Decode_base64Encode (data : Bytes) : base64Decode (base64Encode data) = data := by
  obtain ⟨xs, fill, n, hlt, hfill, htext, hbits⟩ := base64Encode_eq data
  obtain ⟨bs, rest, hrest, hloop, hread⟩ :=
    @decodeLoop_map xs hlt n 0 0 (by decide) []
  rw [base64Decode, htext, hloop, List.nil_append]
  -- Both have the bits of the characters, but for less than a byte at the end.
  apply eq_of_bytesBits_append hrest (Nat.lt_trans hfill (by decide))
  rw [hread, hbits]
  rfl

end Gambit.Wallet
