import GambitCore.Rlp.Decode

/-!
# Headers in a buffer

What a header in a buffer declares, over the natural numbers, and what `readLen` and one call of
`decode` make of it. A string header starts with a byte from `0x80` on, a list header with one from
`0xC0` on; the byte holds a length of at most 55, or the number of length bytes behind it.

A declared payload may run past the end of the buffer, and past `2 ^ 64`. In the first case the call
throws. In the second the sum of offset and length wraps and passes the check against the size of
the buffer: a string is then copied from a range that ends before it starts, which the constructor
of the copy refuses, and a list is taken to be empty.

## Main definitions

* `Rlp.HasAt` — a byte string lies in a buffer at an offset
* `Rlp.Header` — a header at a position, with its length and the payload length it declares

## Main results

* `readLen_of_header`, `readLen_of_truncated` — `readLen` reads what the header declares
* `decodeAt_of_byte`, `decodeAt_of_string`, `decodeAt_of_list`, `decodeAt_of_truncated` — one call
  of `decode`, by the form of the first byte
* `decodeAt_of_string_wraps` — a string that ends past `2 ^ 64`
-/

namespace Gambit.Rlp

open Codec

/-! ### Positions in a buffer -/

/-- The bytes `seg` lie in `inp` at offset `off`. -/
structure HasAt (inp : Bytes) (off : UInt64) (seg : Bytes) : Prop where
  fits : inp.length < 2 ^ 64
  split : ∃ pre rest, inp = pre ++ seg ++ rest ∧ pre.length = off.toNat

namespace HasAt

variable {inp seg seg' : Bytes} {off : UInt64} {c : UInt8}

theorem le_length (h : HasAt inp off seg) : off.toNat + seg.length ≤ inp.length := by
  obtain ⟨pre, rest, rfl, hpre⟩ := h.split
  simp only [List.length_append]
  omega

/-- Advancing over a segment does not wrap. -/
theorem toNat_add (h : HasAt inp off seg) :
    (off + UInt64.ofNat seg.length).toNat = off.toNat + seg.length := by
  have hle := h.le_length
  have hfits := h.fits
  rw [UInt64.toNat_add, UInt64.toNat_ofNat']
  omega

theorem left (h : HasAt inp off (seg ++ seg')) : HasAt inp off seg := by
  obtain ⟨pre, rest, hinp, hpre⟩ := h.split
  exact ⟨h.fits, pre, seg' ++ rest, by simpa using hinp, hpre⟩

/-- What follows a segment lies at the offset behind it. -/
theorem right (h : HasAt inp off (seg ++ seg')) :
    HasAt inp (off + UInt64.ofNat seg.length) seg' := by
  have hnat := h.left.toNat_add
  obtain ⟨pre, rest, hinp, hpre⟩ := h.split
  refine ⟨h.fits, pre ++ seg, rest, by simpa using hinp, ?_⟩
  rw [hnat, List.length_append, hpre]

theorem tail (h : HasAt inp off (c :: seg)) : HasAt inp (off + 1) seg :=
  show HasAt inp (off + UInt64.ofNat [c].length) seg from h.right

theorem getElem?_head (h : HasAt inp off (c :: seg)) : inp[off.toNat]? = some c := by
  obtain ⟨pre, rest, rfl, hpre⟩ := h.split
  simp [← hpre]

theorem isPrefix_drop (h : HasAt inp off seg) : seg <+: inp.drop off.toNat := by
  obtain ⟨pre, rest, rfl, hpre⟩ := h.split
  rw [← hpre, List.append_assoc, List.drop_left]
  exact List.prefix_append _ _

theorem of_isPrefix_drop (hfits : inp.length < 2 ^ 64) (hoff : off.toNat ≤ inp.length)
    (h : seg <+: inp.drop off.toNat) : HasAt inp off seg := by
  obtain ⟨rest, hrest⟩ := h
  refine ⟨hfits, inp.take off.toNat, rest, ?_, List.length_take_of_le hoff⟩
  rw [List.append_assoc, hrest, List.take_append_drop]

end HasAt

/-- A whole buffer lies in itself at its start. -/
theorem hasAt_zero {inp : Bytes} (h : inp.length < 2 ^ 64) : HasAt inp 0 inp :=
  ⟨h, [], [], by simp, rfl⟩

theorem readAt_of_getElem? {inp : Bytes} {off : UInt64} {c : UInt8}
    (h : inp[off.toNat]? = some c) : readAt inp off = .ok c := by
  rw [readAt, h]

/-- The length loop accumulates the bytes it passes. -/
theorem readBigEndian_eq {inp bs : Bytes} {off : UInt64} (h : HasAt inp off bs) (out : UInt64) :
    readBigEndian inp bs.length off out =
      .ok (bs.foldl (fun v c => (v <<< 8) ||| c.toUInt64) out) := by
  induction bs generalizing off out with
  | nil => rfl
  | cons c bs ih =>
    simp only [List.length_cons, readBigEndian, readAt_of_getElem? h.getElem?_head, List.foldl_cons]
    exact ih h.tail _

/-! ### What a header declares -/

/-- A header at position `o`, in the range of first bytes that starts at `base`: `h` bytes that
declare a payload of `L` bytes. -/
inductive Header (inp : Bytes) (o base : ℕ) : ℕ → ℕ → Prop
  | short {c : UInt8} (hget : inp[o]? = some c) (hlow : base ≤ c.toNat)
      (hhigh : c.toNat ≤ base + 55) : Header inp o base 1 (c.toNat - base)
  | long {c : UInt8} {bs : Bytes} (hget : inp[o]? = some c)
      (hnum : c.toNat = base + 55 + bs.length) (hpos : 0 < bs.length) (hmax : bs.length ≤ 8)
      (hbytes : bs <+: inp.drop (o + 1)) : Header inp o base (1 + bs.length) (ofBigEndian bs)

namespace Header

variable {inp : Bytes} {o base h L : ℕ}

theorem first (hd : Header inp o base h L) :
    ∃ c, inp[o]? = some c ∧ base ≤ c.toNat ∧ c.toNat < base + 64 := by
  cases hd with
  | short hget hlow hhigh => exact ⟨_, hget, hlow, by omega⟩
  | long hget hnum hpos hmax _ => exact ⟨_, hget, by omega, by omega⟩

theorem pos (hd : Header inp o base h L) : 0 < h := by
  cases hd <;> omega

/-- A header lies in the buffer. -/
theorem le_length (hd : Header inp o base h L) : o + h ≤ inp.length := by
  cases hd with
  | short hget _ _ => exact (List.getElem?_eq_some_iff.mp hget).1
  | long hget _ _ _ hbytes =>
    have hlt := (List.getElem?_eq_some_iff.mp hget).1
    have hle := hbytes.length_le
    rw [List.length_drop] at hle
    omega

/-- A declared length is a 64-bit word. -/
theorem lt (hd : Header inp o base h L) : L < 2 ^ 64 := by
  cases hd with
  | short _ _ _ => omega
  | long _ _ _ hmax _ =>
    calc ofBigEndian _ < 256 ^ _ := ofBigEndian_lt _
      _ ≤ 256 ^ 8 := Nat.pow_le_pow_right (by decide) hmax
      _ = 2 ^ 64 := by norm_num

/-- A position has at most one header in each range. -/
theorem unique {h' L' : ℕ} (hd : Header inp o base h L) (hd' : Header inp o base h' L') :
    h = h' ∧ L = L' := by
  cases hd with
  | short hget _ hhigh =>
    cases hd' with
    | short hget' _ _ =>
      obtain rfl := Option.some.inj (hget.symm.trans hget')
      exact ⟨rfl, rfl⟩
    | long hget' hnum hpos _ _ =>
      obtain rfl := Option.some.inj (hget.symm.trans hget')
      omega
  | long hget hnum hpos _ hbytes =>
    cases hd' with
    | short hget' _ hhigh =>
      obtain rfl := Option.some.inj (hget.symm.trans hget')
      omega
    | long hget' hnum' _ _ hbytes' =>
      obtain rfl := Option.some.inj (hget.symm.trans hget')
      -- Two prefixes of the same length.
      have hlen := Nat.add_left_cancel (hnum.symm.trans hnum')
      obtain rfl := (List.prefix_of_prefix_length_le hbytes hbytes' hlen.le).eq_of_length hlen
      exact ⟨rfl, rfl⟩

/-- Only a header with length bytes declares a payload that ends past `2 ^ 64`. -/
theorem long_of_wraps (hd : Header inp o base h L) (hsize : inp.length < 2 ^ 63)
    (hwrap : 2 ^ 64 ≤ o + h + L) : ∃ c ∈ inp, base + 55 < c.toNat ∧ c.toNat < base + 64 := by
  have hle := hd.le_length
  cases hd with
  | short _ _ hhigh => omega
  | long hget hnum hpos hmax _ => exact ⟨_, List.mem_of_getElem? hget, by omega, by omega⟩

/-- A byte that stands for itself is no header. -/
theorem not_byte {c : UInt8} (hd : Header inp o base h L) (hc : c.toNat < 0x80)
    (hbase : 0x80 ≤ base) : inp[o]? ≠ some c := by
  intro hget
  obtain ⟨c', hget', hlow, -⟩ := hd.first
  obtain rfl := Option.some.inj (hget.symm.trans hget')
  omega

/-- The string range lies below the list range. -/
theorem not_list_of_string {h' L' : ℕ} (hd : Header inp o 0x80 h L) :
    ¬ Header inp o 0xC0 h' L' := by
  intro hd'
  obtain ⟨c, hget, -, hhigh⟩ := hd.first
  obtain ⟨c', hget', hlow, -⟩ := hd'.first
  obtain rfl := Option.some.inj (hget.symm.trans hget')
  omega

end Header

/-! ### `readLen` -/

section ReadLen

variable {inp : Bytes} {off : UInt64} {c base : UInt8} {h L : ℕ}

theorem toNat_sub_base (hlow : base.toNat ≤ c.toNat) :
    (c.toUInt64 - base.toUInt64).toNat = c.toNat - base.toNat := by
  rw [UInt64.toNat_sub_of_le, UInt8.toNat_toUInt64, UInt8.toNat_toUInt64]
  rwa [UInt64.le_iff_toNat_le, UInt8.toNat_toUInt64, UInt8.toNat_toUInt64]

theorem ofNat_add_one (off : UInt64) (n : ℕ) :
    UInt64.ofNat (off.toNat + (1 + n)) = off + 1 + UInt64.ofNat n := by
  rw [UInt64.ofNat_add, UInt64.ofNat_add, UInt64.ofNat_toNat, ← UInt64.add_assoc]
  rfl

/-- The byte tells that `n` length bytes follow. -/
theorem sub_base_long {n : ℕ} (hnum : c.toNat = base.toNat + 55 + n) (hpos : 0 < n) :
    ¬ c.toUInt64 - base.toUInt64 ≤ 55 ∧ c.toUInt64 - base.toUInt64 - 55 = UInt64.ofNat n := by
  have hsub := @toNat_sub_base c base (by omega)
  have hc : c.toNat < 2 ^ 8 := c.toNat_lt
  constructor
  · simp only [UInt64.le_iff_toNat_le, hsub, UInt64.reduceToNat]
    omega
  · apply UInt64.toNat_inj.mp
    rw [UInt64.toNat_sub_of_le, hsub, UInt64.toNat_ofNat']
    · simp only [UInt64.reduceToNat]
      omega
    · simp only [UInt64.le_iff_toNat_le, hsub, UInt64.reduceToNat]
      omega

/-- `readLen` reads the length that a header declares, and moves behind the header. -/
theorem readLen_of_header (base : UInt8) (hfits : inp.length < 2 ^ 64)
    (hget : inp[off.toNat]? = some c) (hd : Header inp off.toNat base.toNat h L) :
    readLen inp off c.toUInt64 base.toUInt64 =
      .ok (UInt64.ofNat L, UInt64.ofNat (off.toNat + h)) := by
  have hle := hd.le_length
  cases hd with
  | short hget' hlow hhigh =>
    obtain rfl := Option.some.inj (hget.symm.trans hget')
    have hsub := toNat_sub_base hlow
    have hshort : c.toUInt64 - base.toUInt64 ≤ 55 := by
      simp only [UInt64.le_iff_toNat_le, hsub, UInt64.reduceToNat]
      omega
    have hoff := ofNat_add_one off 0
    rw [Nat.add_zero] at hoff
    rw [readLen, if_pos hshort, hoff, ← hsub, UInt64.ofNat_toNat]
    simp
  | @long c' bs hget' hnum hpos hmax hbytes =>
    obtain rfl := Option.some.inj (hget.symm.trans hget')
    obtain ⟨hlong, hcount⟩ := sub_base_long hnum hpos
    have hnext : (off + 1).toNat = off.toNat + 1 := by
      rw [UInt64.toNat_add]
      simp only [UInt64.reduceToNat]
      omega
    have hat : HasAt inp (off + 1) bs :=
      .of_isPrefix_drop hfits (by omega) (by rwa [hnext])
    have hroom : ¬ off + 1 + UInt64.ofNat bs.length > size inp := by
      rw [gt_iff_lt, UInt64.lt_iff_toNat_lt, hat.toNat_add, toNat_size hfits]
      have := hat.le_length
      omega
    have hbs : (UInt64.ofNat bs.length).toNat = bs.length := by
      rw [UInt64.toNat_ofNat']
      omega
    have hvalue : toUint bs = UInt64.ofNat (ofBigEndian bs) := by
      apply UInt64.toNat_inj.mp
      rw [toNat_toUint, UInt64.toNat_ofNat']
    simp only [readLen, hlong, if_false, hcount, hroom, hbs, readBigEndian_eq hat 0, bind, pure,
      Except.bind, Except.pure, ofNat_add_one]
    rw [← hvalue]
    rfl

/-- A first byte of the range without its length bytes behind it is refused. -/
theorem readLen_of_truncated (base : UInt8) (hfits : inp.length < 2 ^ 63)
    (hget : inp[off.toNat]? = some c) (hlow : base.toNat ≤ c.toNat)
    (hhigh : c.toNat < base.toNat + 64) (hno : ∀ h L, ¬ Header inp off.toNat base.toNat h L) :
    readLen inp off c.toUInt64 base.toUInt64 = runtimeError "RLP long length overflow" := by
  have hoff := (List.getElem?_eq_some_iff.mp hget).1
  have hlong : base.toNat + 55 < c.toNat := by
    by_contra hshort
    exact hno _ _ (.short hget hlow (by omega))
  obtain ⟨n, hn⟩ : ∃ n, c.toNat = base.toNat + 55 + n := Nat.exists_eq_add_of_le hlong.le
  obtain ⟨hgt, hcount⟩ := sub_base_long hn (by omega)
  have hbehind : inp.length < off.toNat + 1 + n := by
    by_contra hroom
    have hlen : ((inp.drop (off.toNat + 1)).take n).length = n := by
      rw [List.length_take, List.length_drop]
      omega
    exact hno _ _ (.long hget (by rw [hlen, hn]) (by omega) (by omega) (List.take_prefix _ _))
  have hsize : off + 1 + UInt64.ofNat n > size inp := by
    rw [gt_iff_lt, UInt64.lt_iff_toNat_lt, toNat_size (by omega), UInt64.toNat_add,
      UInt64.toNat_add, UInt64.toNat_ofNat']
    simp only [UInt64.reduceToNat]
    omega
  rw [readLen, if_neg hgt, hcount, if_pos hsize]

end ReadLen

/-! ### One call of the decoder -/

section DecodeAt

variable {inp : Bytes} {off : UInt64} {c : UInt8} {h L : ℕ} {fuel : ℕ}

theorem decodeAt_of_end (hfits : inp.length < 2 ^ 64) (hend : inp.length ≤ off.toNat) :
    decodeAt (fuel + 1) inp off = runtimeError "RLP decode overflow" := by
  have hsize : off ≥ size inp := by
    rwa [ge_iff_le, UInt64.le_iff_toNat_le, toNat_size hfits]
  rw [decodeAt, if_pos hsize]

theorem not_size_le_of_getElem? (hfits : inp.length < 2 ^ 64) (hget : inp[off.toNat]? = some c) :
    ¬ off ≥ size inp := by
  have hoff := (List.getElem?_eq_some_iff.mp hget).1
  rw [ge_iff_le, UInt64.le_iff_toNat_le, toNat_size hfits]
  omega

/-- A byte below `0x80` is an item by itself. -/
theorem decodeAt_of_byte (hfits : inp.length < 2 ^ 64) (hget : inp[off.toNat]? = some c)
    (hc : c.toNat < 0x80) :
    decodeAt (fuel + 1) inp off = .ok (⟨false, [c], []⟩, off + 1) := by
  have hlt : c < 0x80 := UInt8.lt_iff_toNat_lt.mpr hc
  simp only [decodeAt, not_size_le_of_getElem? hfits hget, if_false, readAt_of_getElem? hget, hlt,
    if_true, bind, pure, Except.bind, Except.pure]

/-- The string branch behind its header. -/
theorem decodeAt_string_eq (hfits : inp.length < 2 ^ 64) (hd : Header inp off.toNat 0x80 h L) :
    decodeAt (fuel + 1) inp off =
      if UInt64.ofNat (off.toNat + h) + UInt64.ofNat L > size inp then
        runtimeError "RLP string overflow"
      else do
        let b ← slice inp (UInt64.ofNat (off.toNat + h))
          (UInt64.ofNat (off.toNat + h) + UInt64.ofNat L)
        return (⟨false, b, []⟩, UInt64.ofNat (off.toNat + h) + UInt64.ofNat L) := by
  obtain ⟨c, hget, hlow, hhigh⟩ := hd.first
  have hlt : ¬ c < 0x80 := by
    rw [UInt8.lt_iff_toNat_lt]
    exact Nat.not_lt.mpr hlow
  have hlt' : c < 0xC0 := UInt8.lt_iff_toNat_lt.mpr hhigh
  have hlen : readLen inp off c.toUInt64 0x80 = _ := readLen_of_header 0x80 hfits hget hd
  simp only [decodeAt, not_size_le_of_getElem? hfits hget, if_false, readAt_of_getElem? hget, hlt,
    hlt', if_true, hlen, bind, Except.bind]

/-- The list branch behind its header. -/
theorem decodeAt_list_eq (hfits : inp.length < 2 ^ 64) (hd : Header inp off.toNat 0xC0 h L) :
    decodeAt (fuel + 1) inp off =
      if UInt64.ofNat (off.toNat + h) + UInt64.ofNat L > size inp then
        runtimeError "RLP list overflow"
      else do
        let (items, stop) ← decodeItems fuel inp (UInt64.ofNat (off.toNat + h))
          (UInt64.ofNat (off.toNat + h) + UInt64.ofNat L)
        return (⟨true, [], items⟩, stop) := by
  obtain ⟨c, hget, hlow, -⟩ := hd.first
  have hlt : ¬ c < 0x80 := by
    rw [UInt8.lt_iff_toNat_lt]
    exact Nat.not_lt.mpr (le_trans (by decide) hlow)
  have hlt' : ¬ c < 0xC0 := by
    rw [UInt8.lt_iff_toNat_lt]
    exact Nat.not_lt.mpr hlow
  have hlen : readLen inp off c.toUInt64 0xC0 = _ := readLen_of_header 0xC0 hfits hget hd
  simp only [decodeAt, not_size_le_of_getElem? hfits hget, if_false, readAt_of_getElem? hget, hlt,
    hlt', hlen, bind, Except.bind]

/-- A header without its length bytes is refused in both branches. -/
theorem decodeAt_of_truncated (hfits : inp.length < 2 ^ 63) (hget : inp[off.toNat]? = some c)
    (hc : 0x80 ≤ c.toNat) (hstring : ∀ h L, ¬ Header inp off.toNat 0x80 h L)
    (hlist : ∀ h L, ¬ Header inp off.toNat 0xC0 h L) :
    decodeAt (fuel + 1) inp off = runtimeError "RLP long length overflow" := by
  have hsize := not_size_le_of_getElem? (hfits.trans (by norm_num)) hget
  have hlt : ¬ c < 0x80 := by
    rw [UInt8.lt_iff_toNat_lt]
    exact Nat.not_lt.mpr hc
  by_cases hhigh : c.toNat < 0xC0
  · have hlt' : c < 0xC0 := UInt8.lt_iff_toNat_lt.mpr hhigh
    have hlen : readLen inp off c.toUInt64 0x80 = _ :=
      readLen_of_truncated 0x80 hfits hget hc hhigh hstring
    simp only [decodeAt, hsize, if_false, readAt_of_getElem? hget, hlt, hlt', if_true, hlen, bind,
      Except.bind, runtimeError]
  · have hlt' : ¬ c < 0xC0 := by
      rw [UInt8.lt_iff_toNat_lt]
      exact hhigh
    have hlen : readLen inp off c.toUInt64 0xC0 = _ :=
      readLen_of_truncated 0xC0 hfits hget (Nat.le_of_not_lt hhigh) c.toNat_lt hlist
    simp only [decodeAt, hsize, if_false, readAt_of_getElem? hget, hlt, hlt', hlen, bind,
      Except.bind, runtimeError]

end DecodeAt

/-! ### Where a payload ends -/

section Payload

variable {inp : Bytes} {off : UInt64} {o base h L : ℕ} {fuel : ℕ}

theorem toNat_payload_start (hfits : inp.length < 2 ^ 64) (hd : Header inp o base h L) :
    (UInt64.ofNat (o + h)).toNat = o + h :=
  UInt64.toNat_ofNat_of_lt' (hd.le_length.trans_lt hfits)

/-- The 64-bit sum that is compared with the size. -/
theorem toNat_payload_end (o h L : ℕ) :
    (UInt64.ofNat (o + h) + UInt64.ofNat L).toNat = (o + h + L) % 2 ^ 64 := by
  rw [← UInt64.ofNat_add, UInt64.toNat_ofNat']

/-- The check finds a payload that runs past the end of the buffer, unless its end wraps. -/
theorem payload_overflow_iff (hfits : inp.length < 2 ^ 64) (hd : Header inp o base h L) :
    UInt64.ofNat (o + h) + UInt64.ofNat L > size inp ↔
      inp.length < o + h + L ∧ o + h + L < 2 ^ 64 := by
  have hle := hd.le_length
  have hL := hd.lt
  rw [gt_iff_lt, UInt64.lt_iff_toNat_lt, toNat_size hfits, toNat_payload_end]
  omega

theorem decodeAt_of_string (hfits : inp.length < 2 ^ 64) (hd : Header inp off.toNat 0x80 h L)
    (hend : off.toNat + h + L ≤ inp.length) :
    decodeAt (fuel + 1) inp off = .ok (⟨false, (inp.drop (off.toNat + h)).take L, []⟩,
      UInt64.ofNat (off.toNat + h + L)) := by
  have hroom := mt (payload_overflow_iff hfits hd).mp (by omega)
  have hstart := toNat_payload_start hfits hd
  have hstop : (UInt64.ofNat (off.toNat + h) + UInt64.ofNat L).toNat = off.toNat + h + L := by
    rw [toNat_payload_end]
    omega
  have hle : UInt64.ofNat (off.toNat + h) ≤ UInt64.ofNat (off.toNat + h) + UInt64.ofNat L := by
    rw [UInt64.le_iff_toNat_le, hstart, hstop]
    omega
  rw [decodeAt_string_eq hfits hd, if_neg hroom, slice_of_le _ hle, hstart, hstop, if_pos hend,
    List.drop_take, Nat.add_sub_cancel_left, ← UInt64.ofNat_add]
  rfl

theorem decodeAt_of_string_overflow (hfits : inp.length < 2 ^ 64)
    (hd : Header inp off.toNat 0x80 h L) (hend : inp.length < off.toNat + h + L)
    (hwrap : off.toNat + h + L < 2 ^ 64) :
    decodeAt (fuel + 1) inp off = runtimeError "RLP string overflow" := by
  rw [decodeAt_string_eq hfits hd, if_pos ((payload_overflow_iff hfits hd).mpr ⟨hend, hwrap⟩)]

/-- A string whose end wraps passes the check. The range it is copied from ends before it starts,
and the copy throws. -/
theorem decodeAt_of_string_wraps (hfits : inp.length < 2 ^ 64)
    (hd : Header inp off.toNat 0x80 h L) (hwrap : 2 ^ 64 ≤ off.toNat + h + L) :
    decodeAt (fuel + 1) inp off = .error .lengthError := by
  have hroom := mt (payload_overflow_iff hfits hd).mp (by omega)
  have hstart := toNat_payload_start hfits hd
  have hle := hd.le_length
  have hL := hd.lt
  have hlt : UInt64.ofNat (off.toNat + h) + UInt64.ofNat L < UInt64.ofNat (off.toNat + h) := by
    rw [UInt64.lt_iff_toNat_lt, hstart, toNat_payload_end]
    omega
  rw [decodeAt_string_eq hfits hd, if_neg hroom, slice, if_pos hlt]
  rfl

theorem decodeAt_of_list_overflow (hfits : inp.length < 2 ^ 64)
    (hd : Header inp off.toNat 0xC0 h L) (hend : inp.length < off.toNat + h + L)
    (hwrap : off.toNat + h + L < 2 ^ 64) :
    decodeAt (fuel + 1) inp off = runtimeError "RLP list overflow" := by
  rw [decodeAt_list_eq hfits hd, if_pos ((payload_overflow_iff hfits hd).mpr ⟨hend, hwrap⟩)]

/-- A list is walked item by item, up to an end that may have wrapped. -/
theorem decodeAt_of_list (hfits : inp.length < 2 ^ 64) (hd : Header inp off.toNat 0xC0 h L)
    (hend : off.toNat + h + L ≤ inp.length ∨ 2 ^ 64 ≤ off.toNat + h + L) :
    decodeAt (fuel + 1) inp off = (fun r => (⟨true, [], r.1⟩, r.2)) <$>
      decodeItems fuel inp (UInt64.ofNat (off.toNat + h)) (UInt64.ofNat (off.toNat + h + L)) := by
  have hroom := mt (payload_overflow_iff hfits hd).mp (by omega)
  rw [decodeAt_list_eq hfits hd, if_neg hroom, ← UInt64.ofNat_add]
  rfl

end Payload

end Gambit.Rlp
