import GambitCore.Rlp.Bounds

/-!
# The decoder ends

The recursion and the list loop of `decode` are modelled over a step budget. Here the budget is
taken away again: a call that does not exhaust it returns the same with any larger one, and two
units for each byte ahead, with one or two more, are never exhausted. The end of a list is chosen by
whoever wrote the buffer and may have wrapped or lie inside an item; what carries the argument is
that each call that returns moves the offset forward inside the buffer.

Each item of the decoded tree has a first byte of its own, so that the tree has no more items than
the offset has moved over bytes.

## Main definitions

* `Decoded.count` — the number of items in a decoded tree

## Main results

* `decodeAt_add`, `decodeItems_add` — more budget changes nothing
* `count_of_decodeAt`, `count_of_decodeItems` — the items against the bytes read
* `decode_terminates` — every call ends, moves forward and returns a tree of bounded size
-/

namespace Gambit.Rlp

mutual

/-- The number of items in a decoded tree, itself included. -/
def Decoded.count : Decoded → ℕ
  | ⟨_, _, list⟩ => 1 + Decoded.countEach list

def Decoded.countEach : List Decoded → ℕ
  | [] => 0
  | item :: items => item.count + Decoded.countEach items

end

/-! ### More budget changes nothing -/

/-- Only the list branch spends budget, in its loop. -/
theorem decodeAt_shape (inp : Bytes) (off : UInt64) :
    (∃ r, ∀ fuel, decodeAt (fuel + 1) inp off = r) ∨
      ∃ start stop, ∀ fuel, decodeAt (fuel + 1) inp off =
        (fun r => (⟨true, [], r.1⟩, r.2)) <$> decodeItems fuel inp start stop := by
  by_cases hend : off ≥ size inp
  · simp only [decodeAt, if_pos hend]
    exact .inl ⟨_, fun _ => rfl⟩
  simp only [decodeAt, if_neg hend, bind, Except.bind]
  cases readAt inp off with
  | error e => exact .inl ⟨.error e, fun _ => rfl⟩
  | ok pfx =>
    by_cases hbyte : pfx < 0x80
    · simp only [if_pos hbyte]
      exact .inl ⟨_, fun _ => rfl⟩
    by_cases hstring : pfx < 0xC0
    · simp only [if_neg hbyte, if_pos hstring]
      exact .inl ⟨_, fun _ => rfl⟩
    simp only [if_neg hbyte, if_neg hstring]
    cases readLen inp off pfx.toUInt64 0xC0 with
    | error e => exact .inl ⟨.error e, fun _ => rfl⟩
    | ok header =>
      by_cases hover : header.2 + header.1 > size inp
      · simp only [if_pos hover]
        exact .inl ⟨_, fun _ => rfl⟩
      · simp only [if_neg hover]
        exact .inr ⟨header.2, header.2 + header.1, fun _ => rfl⟩

mutual

/-- A call that does not exhaust its budget returns the same with a larger one. -/
theorem decodeAt_add {inp : Bytes} {off : UInt64} (fuel k : ℕ)
    (h : decodeAt fuel inp off ≠ .error .outOfFuel) :
    decodeAt (fuel + k) inp off = decodeAt fuel inp off := by
  match fuel with
  | 0 => exact absurd rfl h
  | fuel + 1 =>
    rw [Nat.add_right_comm]
    rcases decodeAt_shape inp off with ⟨r, hr⟩ | ⟨start, stop, hloop⟩
    · rw [hr, hr]
    · rw [hloop] at h
      rw [hloop, hloop, decodeItems_add fuel k fun hout => h (map_eq_error.mpr hout)]

/-- The same for the list loop. -/
theorem decodeItems_add {inp : Bytes} {off stop : UInt64} (fuel k : ℕ)
    (h : decodeItems fuel inp off stop ≠ .error .outOfFuel) :
    decodeItems (fuel + k) inp off stop = decodeItems fuel inp off stop := by
  match fuel with
  | 0 => exact absurd rfl h
  | fuel + 1 =>
    rw [Nat.add_right_comm]
    by_cases hlt : off < stop
    · rw [decodeItems, if_pos hlt] at h
      rw [decodeItems, decodeItems, if_pos hlt, if_pos hlt,
        decodeAt_add fuel k fun hout => h (bind_eq_error.mpr (.inl hout))]
      cases hitem : decodeAt fuel inp off with
      | error e => rfl
      | ok item =>
        have hrest : decodeItems fuel inp item.2 stop ≠ .error .outOfFuel := fun hout =>
          h (bind_eq_error.mpr (.inr ⟨item, hitem, bind_eq_error.mpr (.inl hout)⟩))
        simp only [bind, Except.bind, decodeItems_add fuel k hrest]
    · rw [decodeItems, decodeItems, if_neg hlt, if_neg hlt]

end

/-! ### The size of the tree -/

section Count

variable {inp : Bytes}

mutual

/-- A call moves over at least as many bytes as its tree has items. -/
theorem count_of_decodeAt (hsize : inp.length < 2 ^ 63) (fuel : ℕ) {off stop : UInt64}
    {item : Decoded} (h : decodeAt fuel inp off = .ok (item, stop)) :
    off.toNat + item.count ≤ stop.toNat := by
  match fuel with
  | 0 => cases h
  | fuel + 1 =>
    cases returnCase_of_decodeAt hsize h with
    | byte hget hc =>
      rw [toNat_next hsize hget]
      exact Nat.le_refl _
    | string hd hend =>
      have hpos := hd.pos
      rw [toNat_ofNat_of_le hsize hend, Decoded.count, Decoded.countEach]
      omega
    | list hd hend hitems =>
      -- The header is the byte of the list itself.
      have hpos := hd.pos
      have hloop := count_of_decodeItems hsize fuel hitems
      rw [toNat_ofNat_of_le hsize hd.le_length] at hloop
      rw [Decoded.count]
      omega

/-- The same for the list loop and the items it collects. -/
theorem count_of_decodeItems (hsize : inp.length < 2 ^ 63) (fuel : ℕ) {off stop last : UInt64}
    {items : List Decoded} (h : decodeItems fuel inp off stop = .ok (items, last)) :
    off.toNat + Decoded.countEach items ≤ last.toNat := by
  match fuel with
  | 0 => cases h
  | fuel + 1 =>
    obtain ⟨-, rfl, rfl⟩ | ⟨item, next, rest, -, hitem, hrest, rfl⟩ := decodeItems_cases h
    · exact Nat.le_refl _
    · have hfirst := count_of_decodeAt hsize fuel hitem
      have hloop := count_of_decodeItems hsize fuel hrest
      rw [Decoded.countEach]
      omega

end

end Count

/-! ### Termination -/

theorem decodeAt_ne_outOfFuel {inp : Bytes} (hsize : inp.length < 2 ^ 63) {fuel : ℕ} {off : UInt64}
    (hfuel : 2 * (inp.length - off.toNat) + 1 ≤ fuel) :
    decodeAt fuel inp off ≠ .error .outOfFuel := fun h =>
  thrown_of_decodeAt hsize fuel hfuel h

theorem decodeItems_ne_outOfFuel {inp : Bytes} (hsize : inp.length < 2 ^ 63) {fuel : ℕ}
    {off stop : UInt64} (hfuel : 2 * (inp.length - off.toNat) + 2 ≤ fuel) :
    decodeItems fuel inp off stop ≠ .error .outOfFuel := fun h =>
  thrown_of_decodeItems hsize fuel hfuel h

/-- From every offset the decoder returns or throws within a budget that the length of the buffer
gives, and so does the list loop for every end; a larger budget changes nothing. A call that returns
has moved its offset forward, over at least as many bytes as its tree has items. -/
theorem decode_terminates {inp : Bytes} (hsize : inp.length < 2 ^ 63) :
    (∀ off fuel, 2 * (inp.length - off.toNat) + 1 ≤ fuel →
      decodeAt fuel inp off = decodeFrom inp off) ∧
    (∀ off e, decodeFrom inp off = .error e → (∃ what, e = .runtime what) ∨ e = .lengthError) ∧
    (∀ off stop : UInt64, ∃ r, r ≠ .error .outOfFuel ∧
      ∀ fuel, 2 * (inp.length - off.toNat) + 2 ≤ fuel → decodeItems fuel inp off stop = r) ∧
    ∀ fuel off item stop, decodeAt fuel inp off = .ok (item, stop) →
      off < stop ∧ item.count ≤ stop.toNat - off.toNat := by
  refine ⟨fun off fuel hfuel => ?_, fun off e h => ?_, fun off stop => ?_,
    fun fuel off item stop h => ?_⟩
  · -- Both budgets are at least the one that the bytes ahead ask for.
    have hleast := decodeAt_ne_outOfFuel hsize (Nat.le_refl (2 * (inp.length - off.toNat) + 1))
    obtain ⟨k, rfl⟩ := Nat.exists_eq_add_of_le hfuel
    obtain ⟨m, hm⟩ := Nat.exists_eq_add_of_le
      (show 2 * (inp.length - off.toNat) + 1 ≤ 2 * inp.length + 2 by omega)
    rw [decodeFrom, hm, decodeAt_add _ k hleast, decodeAt_add _ m hleast]
  · exact Exn.isThrown_iff.mp (thrown_of_decodeAt hsize _ (by omega) h)
  · have hleast : decodeItems _ inp off stop ≠ _ :=
      decodeItems_ne_outOfFuel hsize (Nat.le_refl (2 * (inp.length - off.toNat) + 2))
    refine ⟨_, hleast, fun fuel hfuel => ?_⟩
    obtain ⟨k, rfl⟩ := Nat.exists_eq_add_of_le hfuel
    exact decodeItems_add _ k hleast
  · have hprogress := progress_of_decodeAt hsize fuel h
    have hcount := count_of_decodeAt hsize fuel h
    exact ⟨UInt64.lt_iff_toNat_lt.mpr hprogress.1, by omega⟩

/-- A list of an empty string and an empty list: three items in three bytes. -/
theorem decode_terminates_three_items :
    ([0xC2, 0x80, 0xC0] : Bytes).length < 2 ^ 63 ∧
      ∃ item, decodeAt 7 [0xC2, 0x80, 0xC0] 0 = .ok (item, 3) ∧ item.count = 3 ∧
        decodeFrom [0xC2, 0x80, 0xC0] 0 = .ok (item, 3) ∧ item.count ≤ 3 - 0 := by
  have hsize : ([0xC2, 0x80, 0xC0] : Bytes).length < 2 ^ 63 := by decide
  obtain ⟨hbudget, -, -, hcount⟩ := decode_terminates hsize
  have hcall : decodeAt 7 [0xC2, 0x80, 0xC0] 0 =
      .ok (⟨true, [], [⟨false, [], []⟩, ⟨true, [], []⟩]⟩, 3) := rfl
  exact ⟨hsize, _, hcall, rfl, (hbudget 0 7 (by decide)).symm.trans hcall,
    (hcount 7 0 _ 3 hcall).2⟩

end Gambit.Rlp
