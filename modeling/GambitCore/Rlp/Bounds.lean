import GambitCore.Rlp.RoundTrip

/-!
# The decoder stays in its buffer

Every call of `decode` that returns has moved its offset forward, and not past the end of the
buffer. A call that does not return throws: one of the messages of the source, or what the vector
constructor throws for a string whose payload ends past `2 ^ 64`, since the range of the copy then
ends before it starts. A list whose payload ends there is left before its first item.

Recursive calls are calls at other offsets of the same buffer, so statements about every starting
offset are about them too. Buffers are shorter than `2 ^ 63` bytes, which every `std::vector` is.

## Main definitions

* `Rlp.CallCase` — the outcomes of a call, by the form of the first byte
* `Rlp.Contained` — a call that returns inside the buffer or throws

## Main results

* `decodeAt_callCase` — what a call can do
* `progress_of_decodeAt`, `progress_of_decodeItems` — where a call, and the list loop, stop
* `thrown_of_decodeAt`, `thrown_of_decodeItems` — a call that fails has thrown; the step budget is
  never exhausted
* `contained` — no call leaves the buffer
-/

namespace Gambit.Rlp

/-- The outcomes of a call, by the form of the first byte. -/
inductive CallCase (fuel : ℕ) (inp : Bytes) (off : UInt64) : Result (Decoded × UInt64) → Prop
  | throws {e : Exn} (he : e.IsThrown) : CallCase fuel inp off (.error e)
  | byte {c : UInt8} (hget : inp[off.toNat]? = some c) (hc : c.toNat < 0x80) :
    CallCase fuel inp off (.ok (⟨false, [c], []⟩, off + 1))
  | string {h L : ℕ} (hd : Header inp off.toNat 0x80 h L)
      (hend : off.toNat + h + L ≤ inp.length) :
    CallCase fuel inp off (.ok (⟨false, (inp.drop (off.toNat + h)).take L, []⟩,
      UInt64.ofNat (off.toNat + h + L)))
  | list {h L : ℕ} (hd : Header inp off.toNat 0xC0 h L)
      (hend : off.toNat + h + L ≤ inp.length ∨ 2 ^ 64 ≤ off.toNat + h + L) :
    CallCase fuel inp off ((fun r => (⟨true, [], r.1⟩, r.2)) <$>
      decodeItems fuel inp (UInt64.ofNat (off.toNat + h)) (UInt64.ofNat (off.toNat + h + L)))

theorem decodeAt_callCase {inp : Bytes} (hsize : inp.length < 2 ^ 63) (fuel : ℕ) (off : UInt64) :
    CallCase fuel inp off (decodeAt (fuel + 1) inp off) := by
  have hfits : inp.length < 2 ^ 64 := hsize.trans (by norm_num)
  cases hget : inp[off.toNat]? with
  | none =>
    rw [decodeAt_of_end hfits (List.getElem?_eq_none_iff.mp hget)]
    exact .throws trivial
  | some c =>
    by_cases hbyte : c.toNat < 0x80
    · rw [decodeAt_of_byte hfits hget hbyte]
      exact .byte hget hbyte
    · by_cases hstring : ∃ h L, Header inp off.toNat 0x80 h L
      · obtain ⟨h, L, hd⟩ := hstring
        rcases Nat.lt_or_ge (off.toNat + h + L) (2 ^ 64) with hwrap | hwrap
        · rcases Nat.lt_or_ge inp.length (off.toNat + h + L) with hend | hend
          · rw [decodeAt_of_string_overflow hfits hd hend hwrap]
            exact .throws trivial
          · rw [decodeAt_of_string hfits hd hend]
            exact .string hd hend
        · -- The check passes, but the copy would end before it starts.
          rw [decodeAt_of_string_wraps hfits hd hwrap]
          exact .throws trivial
      · by_cases hlist : ∃ h L, Header inp off.toNat 0xC0 h L
        · obtain ⟨h, L, hd⟩ := hlist
          by_cases hend : inp.length < off.toNat + h + L ∧ off.toNat + h + L < 2 ^ 64
          · rw [decodeAt_of_list_overflow hfits hd hend.1 hend.2]
            exact .throws trivial
          · -- The payload is in the buffer, or its end has wrapped and the check passes too.
            rw [decodeAt_of_list hfits hd (by omega)]
            exact .list hd (by omega)
        · push Not at hstring hlist
          rw [decodeAt_of_truncated hsize hget (Nat.le_of_not_lt hbyte) hstring hlist]
          exact .throws trivial

/-- The calls that return. -/
inductive ReturnCase (fuel : ℕ) (inp : Bytes) (off : UInt64) : Decoded → UInt64 → Prop
  | byte {c : UInt8} (hget : inp[off.toNat]? = some c) (hc : c.toNat < 0x80) :
    ReturnCase fuel inp off ⟨false, [c], []⟩ (off + 1)
  | string {h L : ℕ} (hd : Header inp off.toNat 0x80 h L)
      (hend : off.toNat + h + L ≤ inp.length) :
    ReturnCase fuel inp off ⟨false, (inp.drop (off.toNat + h)).take L, []⟩
      (UInt64.ofNat (off.toNat + h + L))
  | list {h L : ℕ} {items : List Decoded} {last : UInt64} (hd : Header inp off.toNat 0xC0 h L)
      (hend : off.toNat + h + L ≤ inp.length ∨ 2 ^ 64 ≤ off.toNat + h + L)
      (hitems : decodeItems fuel inp (UInt64.ofNat (off.toNat + h))
        (UInt64.ofNat (off.toNat + h + L)) = .ok (items, last)) :
    ReturnCase fuel inp off ⟨true, [], items⟩ last

theorem returnCase_of_decodeAt {inp : Bytes} (hsize : inp.length < 2 ^ 63) {fuel : ℕ}
    {off stop : UInt64} {item : Decoded} (h : decodeAt (fuel + 1) inp off = .ok (item, stop)) :
    ReturnCase fuel inp off item stop := by
  have hcase := decodeAt_callCase hsize fuel off
  rw [h] at hcase
  generalize hres : (Except.ok (item, stop) : Result (Decoded × UInt64)) = res at hcase
  cases hcase with
  | throws he => cases hres
  | byte hget hc =>
    cases hres
    exact .byte hget hc
  | string hd hend =>
    cases hres
    exact .string hd hend
  | list hd hend =>
    obtain ⟨⟨items, last⟩, hitems, heq⟩ := map_eq_ok.mp hres.symm
    cases heq
    exact .list hd hend hitems

/-! ### Where a call stops -/

section Progress

variable {inp : Bytes}

/-- A position in the buffer fits a word. -/
theorem toNat_ofNat_of_le (hsize : inp.length < 2 ^ 63) {n : ℕ} (hn : n ≤ inp.length) :
    (UInt64.ofNat n).toNat = n :=
  UInt64.toNat_ofNat_of_lt' (hn.trans_lt (hsize.trans (by decide)))

theorem toNat_next {off : UInt64} {c : UInt8} (hsize : inp.length < 2 ^ 63)
    (hget : inp[off.toNat]? = some c) : (off + 1).toNat = off.toNat + 1 := by
  have hlt := (List.getElem?_eq_some_iff.mp hget).1
  rw [UInt64.toNat_add]
  simp only [UInt64.reduceToNat]
  omega

mutual

/-- A call that returns has moved its offset forward, over at least the bytes of its item, and not
past the end of the buffer. -/
theorem progress_of_decodeAt (hsize : inp.length < 2 ^ 63) (fuel : ℕ) {off stop : UInt64}
    {item : Decoded} (h : decodeAt fuel inp off = .ok (item, stop)) :
    off.toNat < stop.toNat ∧ off.toNat + item.bytes.length ≤ stop.toNat ∧
      stop.toNat ≤ inp.length := by
  match fuel with
  | 0 => cases h
  | fuel + 1 =>
    cases returnCase_of_decodeAt hsize h with
    | byte hget hc =>
      have hlt := (List.getElem?_eq_some_iff.mp hget).1
      rw [toNat_next hsize hget]
      exact ⟨Nat.lt_succ_self _, le_rfl, hlt⟩
    | string hd hend =>
      have hpos := hd.pos
      rw [toNat_ofNat_of_le hsize hend, List.length_take]
      omega
    | list hd hend hitems =>
      have hstart := toNat_ofNat_of_le hsize hd.le_length
      have hloop := progress_of_decodeItems hsize fuel (by rw [hstart]; exact hd.le_length) hitems
      have hpos := hd.pos
      rw [hstart] at hloop
      rw [List.length_nil]
      omega

/-- The list loop moves forward over the bytes of its items, and not past the end of the buffer. -/
theorem progress_of_decodeItems (hsize : inp.length < 2 ^ 63) (fuel : ℕ) {off stop last : UInt64}
    {items : List Decoded} (hoff : off.toNat ≤ inp.length)
    (h : decodeItems fuel inp off stop = .ok (items, last)) :
    off.toNat + (items.map fun item => item.bytes.length).sum ≤ last.toNat ∧
      last.toNat ≤ inp.length := by
  match fuel with
  | 0 => cases h
  | fuel + 1 =>
    obtain ⟨-, rfl, rfl⟩ | ⟨item, next, rest, -, hitem, hrest, rfl⟩ := decodeItems_cases h
    · exact ⟨by simp, hoff⟩
    · have hfirst := progress_of_decodeAt hsize fuel hitem
      have hloop := progress_of_decodeItems hsize fuel hfirst.2.2 hrest
      simp only [List.map_cons, List.sum_cons]
      omega

end

/-- The strings in a list share the buffer. -/
theorem sum_length_of_decode (hsize : inp.length < 2 ^ 63) {root : Decoded}
    (h : decode inp = .ok root) :
    (root.list.map fun item => item.bytes.length).sum ≤ inp.length := by
  obtain ⟨⟨item, stop⟩, hroot, h⟩ := bind_eq_ok.mp h
  obtain rfl := Except.ok.inj h
  cases returnCase_of_decodeAt hsize hroot with
  | byte _ _ => exact Nat.zero_le _
  | string _ _ => exact Nat.zero_le _
  | @list _ _ items _ hd _ hitems =>
    have hstart := toNat_ofNat_of_le hsize hd.le_length
    have hloop := progress_of_decodeItems hsize _ (by rw [hstart]; exact hd.le_length) hitems
    show (items.map fun item => item.bytes.length).sum ≤ inp.length
    omega

end Progress

/-! ### How a call fails -/

section Failure

variable {inp : Bytes}

mutual

/-- A call with two units of budget for each byte ahead of it, and one more, returns or throws. -/
theorem thrown_of_decodeAt (hsize : inp.length < 2 ^ 63) (fuel : ℕ) {off : UInt64} {e : Exn}
    (hfuel : 2 * (inp.length - off.toNat) + 1 ≤ fuel) (h : decodeAt fuel inp off = .error e) :
    e.IsThrown := by
  match fuel with
  | 0 => omega
  | fuel + 1 =>
    have hcase := decodeAt_callCase hsize fuel off
    rw [h] at hcase
    generalize hres : (Except.error e : Result (Decoded × UInt64)) = res at hcase
    cases hcase with
    | throws he =>
      cases hres
      exact he
    | byte hget hc => cases hres
    | string hd hend => cases hres
    | list hd hend =>
      -- The header has taken at least one byte, which leaves the loop its two units.
      have hstart := toNat_payload_start (hsize.trans (by norm_num)) hd
      have hpos := hd.pos
      have hle := hd.le_length
      refine thrown_of_decodeItems hsize fuel ?_ (map_eq_error.mp hres.symm)
      rw [hstart]
      omega

/-- The same for the list loop, which makes a call and goes on with what is left. -/
theorem thrown_of_decodeItems (hsize : inp.length < 2 ^ 63) (fuel : ℕ) {off stop : UInt64}
    {e : Exn} (hfuel : 2 * (inp.length - off.toNat) + 2 ≤ fuel)
    (h : decodeItems fuel inp off stop = .error e) : e.IsThrown := by
  match fuel with
  | 0 => omega
  | fuel + 1 =>
    rw [decodeItems] at h
    split at h
    · rcases bind_eq_error.mp h with hitem | ⟨⟨item, next⟩, hitem, hrest⟩
      · exact thrown_of_decodeAt hsize fuel (by omega) hitem
      · have hnext := progress_of_decodeAt hsize fuel hitem
        rcases bind_eq_error.mp hrest with hitems | ⟨_, _, hpure⟩
        · exact thrown_of_decodeItems hsize fuel (by omega) hitems
        · cases hpure
    · cases h

end

end Failure

/-- The call of `decode` at `off` returns an offset behind its start and in the buffer, or throws.
It neither reads nor copies from outside the buffer. -/
def Contained (inp : Bytes) (off : UInt64) : Prop :=
  match decodeFrom inp off with
  | .ok (_, stop) => off < stop ∧ stop ≤ size inp
  | .error e => e.IsThrown

/-- No call of `decode`, on whatever buffer and at whatever offset it starts, leaves the buffer. -/
theorem contained (inp : Bytes) (off : UInt64) (hsize : inp.length < 2 ^ 63) :
    Contained inp off := by
  unfold Contained
  split
  · next item stop hcall =>
    have hprogress := progress_of_decodeAt hsize _ hcall
    rw [UInt64.lt_iff_toNat_lt, UInt64.le_iff_toNat_le,
      toNat_size (hsize.trans (by norm_num))]
    exact ⟨hprogress.1, hprogress.2.2⟩
  · next e hcall => exact thrown_of_decodeAt hsize _ (by omega) hcall

/-- A string header that declares `2 ^ 64 - 1` bytes behind a list of one byte: the list is
returned, and the copy of the string would end before it starts. -/
theorem contained_wrapping_string :
    ([0xC1, 7, 0xBF] ++ List.replicate 8 0xFF : Bytes).length < 2 ^ 63 ∧
      Contained ([0xC1, 7, 0xBF] ++ List.replicate 8 0xFF) 0 ∧
      Contained ([0xC1, 7, 0xBF] ++ List.replicate 8 0xFF) 2 ∧
      decodeFrom ([0xC1, 7, 0xBF] ++ List.replicate 8 0xFF) 2 = .error .lengthError :=
  ⟨by decide, contained _ 0 (by decide), contained _ 2 (by decide), rfl⟩

end Gambit.Rlp
