import GambitCore.Rlp.Encode

/-!
# RLP decoding

`readLen` and `decode` of `rlp.cpp`. The offset is a mutable `size_t` shared by the
recursion; here each call returns the offset it leaves. All offset arithmetic is
that of `UInt64`, wrap-around included, and every element access and range copy goes
through `readAt` and `slice`, which fail outside the buffer.

The recursion and the list loop are one pair of functions over a step budget. A call
spends one unit and hands on the rest; `decodeFrom` starts with two units a byte of
the buffer and two more, which no input exhausts.

## Main definitions

* `Rlp.Decoded` — the value `decode` returns
* `Rlp.decodeFrom`, `Rlp.decode` — `decode(in, offset)` and `decode(in)`
* `Rlp.DecodeCase` — how a call of the decoder returns

## Main results

* `decodeAt_cases`, `decodeItems_cases` — what the decoder accepts
* `length_bytes_of_decode` — decoded strings are no longer than the buffer
-/

namespace Gambit.Rlp

/-- The `Decoded` record. -/
structure Decoded where
  isList : Bool
  bytes : Bytes
  list : List Decoded

/-- The loop of `readLen` over the `n` length bytes from `offset` on. -/
def readBigEndian (inp : Bytes) : ℕ → UInt64 → UInt64 → Result UInt64
  | 0, _, out => .ok out
  | n + 1, offset, out => do
    let c ← readAt inp offset
    readBigEndian inp n (offset + 1) ((out <<< 8) ||| c.toUInt64)

/-- `readLen`: the payload length and the offset behind the header. -/
def readLen (inp : Bytes) (offset pfx base : UInt64) : Result (UInt64 × UInt64) :=
  let len := pfx - base
  let offset := offset + 1
  if len ≤ 55 then .ok (len, offset)
  else
    let numBytes := len - 55
    if offset + numBytes > size inp then runtimeError "RLP long length overflow"
    else do
      let out ← readBigEndian inp numBytes.toNat offset 0
      return (out, offset + numBytes)

mutual

/-- `decode(in, offset)` with a step budget. -/
def decodeAt : ℕ → Bytes → UInt64 → Result (Decoded × UInt64)
  | 0, _, _ => .error .outOfFuel
  | fuel + 1, inp, offset =>
    if offset ≥ size inp then runtimeError "RLP decode overflow"
    else do
      let pfx ← readAt inp offset
      if pfx < 0x80 then
        -- A single byte is its own encoding.
        return (⟨false, [pfx], []⟩, offset + 1)
      else if pfx < 0xC0 then
        let (len, offset) ← readLen inp offset pfx.toUInt64 0x80
        -- The sum wraps at 64 bits, as in the source.
        if offset + len > size inp then runtimeError "RLP string overflow"
        else
          let b ← slice inp offset (offset + len)
          return (⟨false, b, []⟩, offset + len)
      else
        let (len, offset) ← readLen inp offset pfx.toUInt64 0xC0
        if offset + len > size inp then runtimeError "RLP list overflow"
        else
          let (items, offset) ← decodeItems fuel inp offset (offset + len)
          -- `bytes` stays empty for a list.
          return (⟨true, [], items⟩, offset)

/-- The `while (offset < end)` loop of the list branch. -/
def decodeItems : ℕ → Bytes → UInt64 → UInt64 → Result (List Decoded × UInt64)
  | 0, _, _, _ => .error .outOfFuel
  | fuel + 1, inp, offset, stop =>
    if offset < stop then do
      let (item, offset) ← decodeAt fuel inp offset
      let (items, offset) ← decodeItems fuel inp offset stop
      return (item :: items, offset)
    else .ok ([], offset)

end

/-- `decode(in, offset)`. -/
def decodeFrom (inp : Bytes) (offset : UInt64) : Result (Decoded × UInt64) :=
  decodeAt (2 * inp.length + 2) inp offset

/-- `decode(in)`: one item from the start, whatever follows it. -/
def decode (inp : Bytes) : Result Decoded := do
  let (item, _) ← decodeFrom inp 0
  return item

/-! ### What the decoder accepts -/

/-- How a call of `decodeAt` returns, one case for each form of the first byte. -/
inductive DecodeCase (fuel : ℕ) (inp : Bytes) (offset : UInt64) : Decoded → UInt64 → Prop
  | byte {pfx : UInt8} (hread : readAt inp offset = .ok pfx) (hpfx : pfx < 0x80) :
    DecodeCase fuel inp offset ⟨false, [pfx], []⟩ (offset + 1)
  | string {pfx : UInt8} {len start : UInt64} {b : Bytes} (hread : readAt inp offset = .ok pfx)
      (hlow : ¬ pfx < 0x80) (hhigh : pfx < 0xC0)
      (hlen : readLen inp offset pfx.toUInt64 0x80 = .ok (len, start))
      (hfits : ¬ start + len > size inp) (hslice : slice inp start (start + len) = .ok b) :
    DecodeCase fuel inp offset ⟨false, b, []⟩ (start + len)
  | list {pfx : UInt8} {len start stop : UInt64} {items : List Decoded}
      (hread : readAt inp offset = .ok pfx) (hlow : ¬ pfx < 0xC0)
      (hlen : readLen inp offset pfx.toUInt64 0xC0 = .ok (len, start))
      (hfits : ¬ start + len > size inp)
      (hitems : decodeItems fuel inp start (start + len) = .ok (items, stop)) :
    DecodeCase fuel inp offset ⟨true, [], items⟩ stop

theorem decodeAt_cases {fuel : ℕ} {inp : Bytes} {offset stop : UInt64} {item : Decoded}
    (h : decodeAt (fuel + 1) inp offset = .ok (item, stop)) :
    DecodeCase fuel inp offset item stop := by
  rw [decodeAt] at h
  split at h
  · cases h
  · obtain ⟨pfx, hread, h⟩ := bind_eq_ok.mp h
    split at h
    · next hbyte =>
      cases h
      exact .byte hread hbyte
    · next hbyte =>
      split at h
      · next hstring =>
        obtain ⟨⟨len, start⟩, hlen, h⟩ := bind_eq_ok.mp h
        dsimp only at h
        split at h
        · cases h
        · next hfits =>
          obtain ⟨b, hslice, h⟩ := bind_eq_ok.mp h
          cases h
          exact .string hread hbyte hstring hlen hfits hslice
      · next hlist =>
        obtain ⟨⟨len, start⟩, hlen, h⟩ := bind_eq_ok.mp h
        dsimp only at h
        split at h
        · cases h
        · next hfits =>
          obtain ⟨⟨items, stop⟩, hitems, h⟩ := bind_eq_ok.mp h
          cases h
          exact .list hread hlist hlen hfits hitems

/-- How the list loop returns: at its end, or after one item and the rest. -/
theorem decodeItems_cases {fuel : ℕ} {inp : Bytes} {offset stop last : UInt64}
    {items : List Decoded} (h : decodeItems (fuel + 1) inp offset stop = .ok (items, last)) :
    (¬ offset < stop ∧ items = [] ∧ last = offset) ∨
      ∃ item next rest, offset < stop ∧ decodeAt fuel inp offset = .ok (item, next) ∧
        decodeItems fuel inp next stop = .ok (rest, last) ∧ items = item :: rest := by
  rw [decodeItems] at h
  split at h
  · next hlt =>
    obtain ⟨⟨item, next⟩, hitem, h⟩ := bind_eq_ok.mp h
    obtain ⟨⟨rest, last⟩, hrest, h⟩ := bind_eq_ok.mp h
    cases h
    exact .inr ⟨item, next, rest, hlt, hitem, hrest, rfl⟩
  · next hlt =>
    cases h
    exact .inl ⟨hlt, rfl, rfl⟩

theorem length_le_of_slice {b out : Bytes} {first last : UInt64}
    (h : slice b first last = .ok out) : out.length ≤ b.length := by
  unfold slice at h
  split_ifs at h
  obtain rfl := Except.ok.inj h
  simp only [List.length_drop, List.length_take]
  omega

theorem length_pos_of_readAt {b : Bytes} {i : UInt64} {c : UInt8} (h : readAt b i = .ok c) :
    0 < b.length := by
  cases b with
  | nil => cases h
  | cons _ _ => exact Nat.succ_pos _

/-- A decoded byte string is a part of the buffer, so no longer than it. -/
theorem length_bytes_of_decodeAt {fuel : ℕ} {inp : Bytes} {offset stop : UInt64} {item : Decoded}
    (h : decodeAt fuel inp offset = .ok (item, stop)) : item.bytes.length ≤ inp.length := by
  cases fuel with
  | zero => cases h
  | succ fuel =>
    cases decodeAt_cases h with
    | byte hread _ => exact length_pos_of_readAt hread
    | string _ _ _ _ _ hslice => exact length_le_of_slice hslice
    | list _ _ _ _ _ => exact Nat.zero_le _

theorem length_bytes_of_decodeItems {fuel : ℕ} {inp : Bytes} {offset stop last : UInt64}
    {items : List Decoded} (h : decodeItems fuel inp offset stop = .ok (items, last)) :
    ∀ item ∈ items, item.bytes.length ≤ inp.length := by
  induction fuel generalizing offset items with
  | zero => cases h
  | succ fuel ih =>
    obtain ⟨-, rfl, -⟩ | ⟨item, next, rest, -, hitem, hrest, rfl⟩ := decodeItems_cases h
    · simp
    · exact List.forall_mem_cons.mpr ⟨length_bytes_of_decodeAt hitem, ih hrest⟩

/-- The same for the children of the item `decode` returns. -/
theorem length_bytes_of_decode {inp : Bytes} {root : Decoded} (h : decode inp = .ok root) :
    ∀ item ∈ root.list, item.bytes.length ≤ inp.length := by
  obtain ⟨⟨item, stop⟩, hroot, h⟩ := bind_eq_ok.mp h
  obtain rfl := Except.ok.inj h
  cases decodeAt_cases hroot with
  | byte _ _ => simp
  | string _ _ _ _ _ _ => simp
  | list _ _ _ _ hitems => exact length_bytes_of_decodeItems hitems

end Gambit.Rlp
