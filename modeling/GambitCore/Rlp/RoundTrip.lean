import GambitCore.Rlp.Header

/-!
# Decoding undoes encoding

`decodeFrom` run at the start of an encoded tree, anywhere in a buffer, returns that
tree and leaves the offset right behind it. The argument follows the encoder: a
header is read back to the length it was written from, then a string is copied out
and a list is walked item by item, the offset moving from the start of one encoding
to the start of the next.

Buffers are assumed shorter than `2 ^ 64` bytes throughout, which every `std::vector`
is: its `size()` is a `size_t`.

## Main definitions

* `Item.toDecoded` — a tree as the record `decode` returns

## Main results

* `header_of_encodeLength` — a written header declares its length
* `decodeAt_encode`, `decodeItems_encode` — the step lemmas over trees and forests
* `decodeFrom_encode` — the round trip, anywhere in a buffer
* `decode_encode` — a buffer that holds one encoded tree
* `Item.encode_injective` — trees with equal encodings are equal
-/

namespace Gambit.Rlp

open Codec

/-! ### Headers -/

/-- A header that `encodeLength` has written declares the length it was written from. -/
theorem header_of_encodeLength {inp : Bytes} {off len : UInt64} {base : UInt8}
    (hbase : base.toNat ≤ 192) (hat : HasAt inp off (encodeLength len base)) :
    Header inp off.toNat base.toNat (encodeLength len base).length len.toNat := by
  by_cases hshort : len < 56
  · have hlen : len.toNat < 56 := UInt64.lt_iff_toNat_lt.mp hshort
    rw [encodeLength, if_pos hshort] at hat ⊢
    have hbyte : (base + len.toUInt8).toNat = base.toNat + len.toNat := by
      rw [UInt8.toNat_add, UInt64.toNat_toUInt8]
      omega
    have hlow : base.toNat ≤ (base + len.toUInt8).toNat := by omega
    have hd := Header.short hat.getElem?_head hlow (by omega)
    rwa [hbyte, Nat.add_sub_cancel_left] at hd
  · have hle := length_minimalBytes_le len
    have hlen : 56 ≤ len.toNat := UInt64.le_iff_toNat_le.mp (UInt64.not_lt.mp hshort)
    have hpos : 0 < (minimalBytes 8 len []).length := by
      rw [minimalBytes_eight, List.length_pos_iff]
      exact bigEndian_ne_nil (by omega)
    rw [encodeLength, if_neg hshort] at hat ⊢
    have hbyte : (base + 55 + (size (minimalBytes 8 len [])).toUInt8).toNat =
        base.toNat + 55 + (minimalBytes 8 len []).length := by
      rw [UInt8.toNat_add, UInt8.toNat_add, UInt64.toNat_toUInt8,
        Gambit.toNat_size (lt_of_le_of_lt hle (by norm_num))]
      simp only [UInt8.reduceToNat]
      omega
    have htail : (off + 1).toNat = off.toNat + 1 := by
      have hfits := hat.fits
      have hroom := hat.le_length
      rw [List.length_cons] at hroom
      rw [UInt64.toNat_add]
      simp only [UInt64.reduceToNat]
      omega
    have hbytes := hat.tail.isPrefix_drop
    rw [htail] at hbytes
    have hd := Header.long hat.getElem?_head hbyte hpos hle hbytes
    rwa [minimalBytes_eight, ofBigEndian_bigEndian, Nat.add_comm 1, ← minimalBytes_eight,
      ← List.length_cons] at hd

/-! ### Items -/

namespace Item

mutual

/-- A tree as the record `decode` returns: the children of a string and the bytes of a
list are empty. -/
def toDecoded : Item → Decoded
  | .bytes b => ⟨false, b, []⟩
  | .list items => ⟨true, [], toDecodedEach items⟩

/-- The children of a list node. -/
def toDecodedEach : List Item → List Decoded
  | [] => []
  | t :: ts => t.toDecoded :: toDecodedEach ts

end

theorem toDecodedEach_eq_map (ts : List Item) : toDecodedEach ts = ts.map toDecoded := by
  induction ts with
  | nil => rfl
  | cons t ts ih => simp [toDecodedEach, ih]

end Item

/-- A payload behind its header. -/
theorem header_of_payload {inp payload : Bytes} {off : UInt64} (base : UInt8)
    (hbase : base.toNat ≤ 192) (h : HasAt inp off (encodeLength (size payload) base ++ payload)) :
    Header inp off.toNat base.toNat (encodeLength (size payload) base).length payload.length := by
  have hle := h.le_length
  have hfits := h.fits
  rw [List.length_append] at hle
  have hd := header_of_encodeLength hbase h.left
  rwa [toNat_size (by omega)] at hd

/-- A string branch: the header, then the bytes it announces. -/
theorem decodeAt_string {inp b : Bytes} {off : UInt64} (fuel : ℕ)
    (h : HasAt inp off (encodeLength (size b) 0x80 ++ b)) :
    decodeAt (fuel + 1) inp off =
      .ok (⟨false, b, []⟩, off + UInt64.ofNat (encodeLength (size b) 0x80 ++ b).length) := by
  have hend := h.le_length
  rw [List.length_append, ← Nat.add_assoc] at hend
  have hbytes := List.prefix_iff_eq_take.mp h.right.isPrefix_drop
  rw [h.left.toNat_add] at hbytes
  rw [decodeAt_of_string h.fits (header_of_payload 0x80 (by decide) h) hend, ← hbytes,
    Nat.add_assoc, ← List.length_append, UInt64.ofNat_add, UInt64.ofNat_toNat]

/-- A list branch: the header, then whatever the loop makes of the payload. -/
theorem decodeAt_list {inp payload : Bytes} {off stop : UInt64} {items : List Decoded} {fuel : ℕ}
    (h : HasAt inp off (encodeLength (size payload) 0xC0 ++ payload))
    (hitems : decodeItems fuel inp (off + UInt64.ofNat (encodeLength (size payload) 0xC0).length)
      (off + UInt64.ofNat (encodeLength (size payload) 0xC0).length + size payload) =
        .ok (items, stop)) :
    decodeAt (fuel + 1) inp off = .ok (⟨true, [], items⟩, stop) := by
  have hend := h.le_length
  rw [List.length_append, ← Nat.add_assoc] at hend
  rw [decodeAt_of_list h.fits (header_of_payload 0xC0 (by decide) h) (.inl hend)]
  simp only [UInt64.ofNat_add, UInt64.ofNat_toNat]
  exact congrArg (Functor.map fun r => ((⟨true, [], r.1⟩ : Decoded), r.2)) hitems

/-- A leaf is decoded to its bytes, in the single-byte form or behind a header. -/
theorem decodeAt_bytes {inp b : Bytes} {off : UInt64} (fuel : ℕ)
    (h : HasAt inp off (encodeBytes b)) :
    decodeAt (fuel + 1) inp off =
      .ok (⟨false, b, []⟩, off + UInt64.ofNat (encodeBytes b).length) := by
  by_cases hsingle : ∃ c, b = [c] ∧ c < 0x80
  · obtain ⟨c, rfl, hc⟩ := hsingle
    -- No header: the byte stands for itself.
    have henc : encodeBytes [c] = [c] := by simp [encodeBytes, hc]
    rw [henc] at h ⊢
    exact decodeAt_of_byte h.fits h.getElem?_head (UInt8.lt_iff_toNat_lt.mp hc)
  · have henc : encodeBytes b = encodeLength (size b) 0x80 ++ b := by
      unfold encodeBytes
      split
      -- A single byte of `0x80` or more gets a header like any other string.
      · next c =>
        have hc : ¬ c < 0x80 := fun hc => hsingle ⟨c, rfl, hc⟩
        rw [if_neg hc]
      · rfl
    rw [henc] at h ⊢
    exact decodeAt_string fuel h

/-- The loop stops at the end of the payload. -/
theorem decodeItems_stop (fuel : ℕ) (inp : Bytes) (off : UInt64) :
    decodeItems (fuel + 1) inp off off = .ok ([], off) := by
  simp [decodeItems]

mutual

/-- A tree is decoded to itself and the offset moves behind it. Two units of budget a
byte are enough: one for the call, one for the loop that made it. -/
theorem decodeAt_encode (t : Item) {inp : Bytes} {off : UInt64} (fuel : ℕ)
    (hfuel : 2 * t.encode.length ≤ fuel) (h : HasAt inp off t.encode) :
    decodeAt fuel inp off = .ok (t.toDecoded, off + UInt64.ofNat t.encode.length) := by
  have hpos := List.length_pos_iff.mpr t.encode_ne_nil
  obtain ⟨fuel, rfl⟩ : ∃ n, fuel = n + 1 := ⟨fuel - 1, by omega⟩
  cases t with
  | bytes b => exact decodeAt_bytes fuel h
  | list items =>
    simp only [Item.encode, encodeList] at h hfuel ⊢
    -- The header takes at least one byte, which pays for the call of the loop.
    have hhead := List.length_pos_iff.mpr
      (encodeLength_ne_nil (size (Item.encodeEach items).flatten) 0xC0)
    rw [List.length_append] at hfuel
    have hforest := decodeItems_encode items fuel (by omega) h.right
    refine decodeAt_list h (hforest.trans ?_)
    rw [List.length_append, UInt64.ofNat_add, UInt64.add_assoc]
    rfl

/-- The list loop walks a forest from one encoding to the next. -/
theorem decodeItems_encode (ts : List Item) {inp : Bytes} {off : UInt64} (fuel : ℕ)
    (hfuel : 2 * (Item.encodeEach ts).flatten.length + 1 ≤ fuel)
    (h : HasAt inp off (Item.encodeEach ts).flatten) :
    decodeItems fuel inp off (off + size (Item.encodeEach ts).flatten) =
      .ok (Item.toDecodedEach ts, off + size (Item.encodeEach ts).flatten) := by
  obtain ⟨fuel, rfl⟩ : ∃ n, fuel = n + 1 := ⟨fuel - 1, by omega⟩
  cases ts with
  | nil => simpa [Item.encodeEach, size, Item.toDecodedEach] using decodeItems_stop fuel inp off
  | cons t ts =>
    simp only [Item.encodeEach, List.flatten_cons] at h hfuel ⊢
    have hpos := List.length_pos_iff.mpr t.encode_ne_nil
    rw [List.length_append] at hfuel
    have htree := decodeAt_encode t fuel (by omega) h.left
    have hforest := decodeItems_encode ts fuel (by omega) h.right
    have hoff : off + size (t.encode ++ (Item.encodeEach ts).flatten) =
        off + UInt64.ofNat t.encode.length + size (Item.encodeEach ts).flatten := by
      rw [size, List.length_append, UInt64.ofNat_add, ← UInt64.add_assoc]
      rfl
    -- Every encoding is non-empty, so the loop enters its body.
    have hlt : off < off + size (t.encode ++ (Item.encodeEach ts).flatten) := by
      rw [UInt64.lt_iff_toNat_lt, size, h.toNat_add, List.length_append]
      omega
    rw [hoff] at hlt ⊢
    simp only [decodeItems, hlt, if_true, htree, hforest, Item.toDecodedEach, bind, pure,
      Except.bind, Except.pure]

end

/-- **Round trip.** At the start of an encoded tree, anywhere in a buffer, `decode`
returns the tree and leaves the offset behind its last byte. -/
theorem decodeFrom_encode (t : Item) (pre rest : Bytes)
    (hbuf : (pre ++ t.encode ++ rest).length < 2 ^ 64) :
    ∃ off, decodeFrom (pre ++ t.encode ++ rest) (size pre) = .ok (t.toDecoded, off) ∧
      off.toNat = pre.length + t.encode.length := by
  have hpre : (size pre).toNat = pre.length := toNat_size (by
    simp only [List.length_append] at hbuf
    omega)
  have h : HasAt (pre ++ t.encode ++ rest) (size pre) t.encode :=
    ⟨hbuf, pre, rest, rfl, hpre.symm⟩
  refine ⟨_, decodeAt_encode t _ ?_ h, by rw [h.toNat_add, hpre]⟩
  simp only [List.length_append]
  omega

/-- The nested list `["dog", [], 0x80]` in the middle of a buffer. -/
theorem decodeFrom_encode_nested :
    let t : Item := .list [.bytes (str "dog"), .list [], .bytes [0x80]]
    ([7] ++ t.encode ++ [9, 9]).length < 2 ^ 64 ∧
      ∃ off, decodeFrom ([7] ++ t.encode ++ [9, 9]) (size [7]) = .ok (t.toDecoded, off) ∧
        off.toNat = 1 + t.encode.length :=
  ⟨by decide, decodeFrom_encode _ [7] [9, 9] (by decide)⟩

/-- A buffer that holds one encoded tree and nothing else. -/
theorem decode_encode (t : Item) (hlen : t.encode.length < 2 ^ 64) :
    decode t.encode = .ok t.toDecoded := by
  have hdec := decodeAt_encode t (2 * t.encode.length + 2) (by omega) (hasAt_zero hlen)
  simp only [decode, decodeFrom, hdec, bind, pure, Except.bind, Except.pure]

namespace Item

mutual

theorem toDecoded_injective : ∀ {t u : Item}, t.toDecoded = u.toDecoded → t = u
  | .bytes b, .bytes c, h => by
    simp only [toDecoded, Decoded.mk.injEq, true_and, and_true] at h
    rw [h]
  | .bytes _, .list _, h => by simp [toDecoded] at h
  | .list _, .bytes _, h => by simp [toDecoded] at h
  | .list ts, .list us, h => by
    simp only [toDecoded, Decoded.mk.injEq, true_and] at h
    rw [toDecodedEach_injective h]

theorem toDecodedEach_injective :
    ∀ {ts us : List Item}, toDecodedEach ts = toDecodedEach us → ts = us
  | [], [], _ => rfl
  | [], _ :: _, h => by simp [toDecodedEach] at h
  | _ :: _, [], h => by simp [toDecodedEach] at h
  | t :: ts, u :: us, h => by
    simp only [toDecodedEach, List.cons.injEq] at h
    rw [toDecoded_injective h.1, toDecodedEach_injective h.2]

end

/-- Trees with equal encodings are equal. -/
theorem encode_injective {t u : Item} (hlen : t.encode.length < 2 ^ 64)
    (h : t.encode = u.encode) : t = u := by
  have ht := decode_encode t hlen
  rw [h, decode_encode u (h ▸ hlen)] at ht
  exact (toDecoded_injective (Except.ok.inj ht)).symm

end Item

end Gambit.Rlp
