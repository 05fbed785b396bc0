import GambitCore.Rlp.Bounds

/-!
# Well-formed items

What a buffer must hold for an item to lie there: a header, and behind it as many bytes as the
header declares, which for a list are the encodings of its items one after the other. Lengths are
natural numbers, and leading zeros in a length are allowed.

`decode` accepts all of these and more. The list loop stops as soon as its offset has reached the
end of the list, but each item is checked against the end of the whole buffer. An item that begins
inside a list and ends behind it is taken, and the list grows by what it has too much. And a list
whose end wraps is taken to be empty.

Whether one call falls for that depends on the positions at which it expects a header, and on no
others: the bytes of a string may look like a list with an item too long, and nothing comes of it.

## Main definitions

* `Rlp.WellFormed`, `Rlp.Tiles` — an item between two positions, and items that fill a range
* `Rlp.Faithful` — a call returns well-formed items only, and throws where there is none
* `Rlp.Visited` — the positions at which a call reads an item
* `Rlp.ListWraps`, `Rlp.Straddles` — a list that ends past `2 ^ 64`, and one with an item across
  its end

## Main results

* `decodeAt_of_wellFormed` — well-formed items are decoded
* `WellFormed.unique` — at most one item lies at a position
* `faithful_iff` — when a call is faithful
-/

namespace Gambit.Rlp

mutual

/-- The bytes from `o` up to `stop` are the encoding of an item: a byte, a string that fills the
payload of its header, or a list whose items do. -/
def WellFormed (inp : Bytes) (o stop : ℕ) : Decoded → Prop
  | ⟨false, b, items⟩ =>
    items = [] ∧
      ((∃ c, inp[o]? = some c ∧ c.toNat < 0x80 ∧ b = [c] ∧ stop = o + 1) ∨
        ∃ h L, Header inp o 0x80 h L ∧ stop = o + h + L ∧ stop ≤ inp.length ∧
          b = (inp.drop (o + h)).take L)
  | ⟨true, b, items⟩ =>
    b = [] ∧ ∃ h L, Header inp o 0xC0 h L ∧ stop = o + h + L ∧ stop ≤ inp.length ∧
      Tiles inp stop (o + h) items

/-- The encodings of the items lie one behind the other, from a position up to `stop`. -/
def Tiles (inp : Bytes) (stop : ℕ) : ℕ → List Decoded → Prop
  | o, [] => o = stop
  | o, item :: items => ∃ next, WellFormed inp o next item ∧ Tiles inp stop next items

end

section Shape

variable {inp : Bytes} {o stop : ℕ}

/-- Where an item ends: behind its one byte, or behind the payload of its header. -/
theorem WellFormed.span {item : Decoded} (hitem : WellFormed inp o stop item) :
    (∃ c, inp[o]? = some c ∧ c.toNat < 0x80 ∧ stop = o + 1) ∨
      ∃ h L, (Header inp o 0x80 h L ∨ Header inp o 0xC0 h L) ∧ stop = o + h + L ∧
        stop ≤ inp.length := by
  obtain ⟨isList, b, items⟩ := item
  cases isList with
  | false =>
    rw [WellFormed] at hitem
    obtain ⟨-, ⟨c, hget, hc, -, hstop⟩ | ⟨h, L, hd, hstop, hend, -⟩⟩ := hitem
    · exact .inl ⟨c, hget, hc, hstop⟩
    · exact .inr ⟨h, L, .inl hd, hstop, hend⟩
  | true =>
    rw [WellFormed] at hitem
    obtain ⟨-, h, L, hd, hstop, hend, -⟩ := hitem
    exact .inr ⟨h, L, .inr hd, hstop, hend⟩

/-- An item takes at least one byte and lies in the buffer. -/
theorem WellFormed.bounds {item : Decoded} (hitem : WellFormed inp o stop item) :
    o < stop ∧ stop ≤ inp.length := by
  rcases hitem.span with ⟨c, hget, -, rfl⟩ | ⟨h, L, hd, rfl, hend⟩
  · exact ⟨Nat.lt_succ_self o, (List.getElem?_eq_some_iff.mp hget).1⟩
  · have hpos : 0 < h := hd.elim Header.pos Header.pos
    exact ⟨by omega, hend⟩

theorem Tiles.length_le {items : List Decoded} (h : Tiles inp stop o items) :
    o + items.length ≤ stop := by
  induction items generalizing o with
  | nil =>
    rw [Tiles] at h
    exact h.le
  | cons item items ih =>
    rw [Tiles] at h
    obtain ⟨next, hitem, hrest⟩ := h
    have hlt := hitem.bounds.1
    have hle := ih hrest
    rw [List.length_cons]
    omega

theorem Tiles.append_singleton {start : ℕ} {items : List Decoded} {item : Decoded}
    (h : Tiles inp o start items) (hitem : WellFormed inp o stop item) :
    Tiles inp stop start (items ++ [item]) := by
  induction items generalizing start with
  | nil =>
    rw [Tiles] at h
    subst h
    simp only [List.nil_append, Tiles, exists_eq_right]
    exact hitem
  | cons first items ih =>
    rw [Tiles] at h
    obtain ⟨next, hfirst, hrest⟩ := h
    rw [List.cons_append, Tiles]
    exact ⟨next, hfirst, ih hrest⟩

/-- A list ends where its header says. -/
theorem WellFormed.stop_eq_of_list {item : Decoded} {h L : ℕ} (hd : Header inp o 0xC0 h L)
    (hitem : WellFormed inp o stop item) : stop = o + h + L := by
  rcases hitem.span with ⟨c, hget, hc, -⟩ | ⟨_, _, hd' | hd', rfl, -⟩
  · exact absurd hget (hd.not_byte hc (by decide))
  · exact absurd hd hd'.not_list_of_string
  · obtain ⟨rfl, rfl⟩ := hd.unique hd'
    rfl

/-- A string ends where its header says. -/
theorem WellFormed.stop_eq_of_string {item : Decoded} {h L : ℕ} (hd : Header inp o 0x80 h L)
    (hitem : WellFormed inp o stop item) : stop = o + h + L := by
  rcases hitem.span with ⟨c, hget, hc, -⟩ | ⟨_, _, hd' | hd', rfl, -⟩
  · exact absurd hget (hd.not_byte hc le_rfl)
  · obtain ⟨rfl, rfl⟩ := hd.unique hd'
    rfl
  · exact absurd hd' hd.not_list_of_string

end Shape

/-! ### Well-formed items are decoded -/

section Complete

variable {inp : Bytes}

mutual

/-- A well-formed item is decoded, and the offset moves behind it. -/
theorem decodeAt_of_wellFormed (hsize : inp.length < 2 ^ 63) :
    ∀ (item : Decoded) (fuel : ℕ) {off : UInt64} {stop : ℕ}, WellFormed inp off.toNat stop item →
      2 * (inp.length - off.toNat) + 1 ≤ fuel →
      decodeAt fuel inp off = .ok (item, UInt64.ofNat stop)
  | ⟨false, b, items⟩, fuel, off, stop, hitem, hfuel => by
    have hfits : inp.length < 2 ^ 64 := hsize.trans (by norm_num)
    obtain ⟨fuel, rfl⟩ : ∃ n, fuel = n + 1 := ⟨fuel - 1, by omega⟩
    rw [WellFormed] at hitem
    obtain ⟨rfl, ⟨c, hget, hc, rfl, rfl⟩ | ⟨h, L, hd, rfl, hend, rfl⟩⟩ := hitem
    · rw [decodeAt_of_byte hfits hget hc, UInt64.ofNat_add, UInt64.ofNat_toNat]
      rfl
    · exact decodeAt_of_string hfits hd hend
  | ⟨true, b, items⟩, fuel, off, stop, hitem, hfuel => by
    have hfits : inp.length < 2 ^ 64 := hsize.trans (by norm_num)
    have hbounds := hitem.bounds
    obtain ⟨fuel, rfl⟩ : ∃ n, fuel = n + 1 := ⟨fuel - 1, by omega⟩
    rw [WellFormed] at hitem
    obtain ⟨rfl, h, L, hd, hstop, hend, htiles⟩ := hitem
    have hpos := hd.pos
    have hlen := htiles.length_le
    have hstart := toNat_payload_start hfits hd
    have hroom : off.toNat + h + L ≤ inp.length := hstop ▸ hend
    rw [← hstart] at htiles
    have hloop := decodeItems_of_tiles hsize items fuel htiles
      (toNat_ofNat_of_le hsize hend).ge (by rw [hstart]; omega)
    -- Behind the last item the loop has one unit left, and stops.
    obtain ⟨rest, hrest⟩ : ∃ n, fuel - items.length = n + 1 := ⟨fuel - items.length - 1, by omega⟩
    rw [decodeAt_of_list hfits hd (.inl hroom), ← hstop, hloop, hrest, decodeItems_stop]
    simp [Functor.map, Except.map]

/-- The list loop takes the items of a range one by one, and goes on behind them. -/
theorem decodeItems_of_tiles (hsize : inp.length < 2 ^ 63) :
    ∀ (items : List Decoded) (fuel : ℕ) {off stop : UInt64} {a : ℕ}, Tiles inp a off.toNat items →
      a ≤ stop.toNat → 2 * (inp.length - off.toNat) + 2 ≤ fuel →
      decodeItems fuel inp off stop = (fun r => (items ++ r.1, r.2)) <$>
        decodeItems (fuel - items.length) inp (UInt64.ofNat a) stop
  | [], fuel, off, stop, a, htiles, hstop, hfuel => by
    rw [Tiles] at htiles
    subst htiles
    rw [UInt64.ofNat_toNat, List.length_nil, Nat.sub_zero]
    cases decodeItems fuel inp off stop <;> rfl
  | item :: items, fuel, off, stop, a, htiles, hstop, hfuel => by
    rw [Tiles] at htiles
    obtain ⟨next, hitem, hrest⟩ := htiles
    have hbounds := hitem.bounds
    have hle := hrest.length_le
    obtain ⟨fuel, rfl⟩ : ∃ n, fuel = n + 1 := ⟨fuel - 1, by omega⟩
    have hnext := toNat_ofNat_of_le hsize hbounds.2
    have hlt : off < stop := by
      rw [UInt64.lt_iff_toNat_lt]
      omega
    have hfirst := decodeAt_of_wellFormed hsize item fuel hitem (by omega)
    rw [← hnext] at hrest
    have hloop := decodeItems_of_tiles hsize items fuel hrest hstop (by omega)
    rw [decodeItems, if_pos hlt, hfirst, List.length_cons, Nat.add_sub_add_right]
    simp only [bind, Except.bind, hloop]
    cases decodeItems (fuel - items.length) inp (UInt64.ofNat a) stop <;> rfl

end

end Complete

/-! ### One item at a position -/

section Unique

variable {inp : Bytes} {o : ℕ}

/-- At most one item lies at a position: the decoder returns it. -/
theorem WellFormed.unique (hsize : inp.length < 2 ^ 63) {stop stop' : ℕ} {item item' : Decoded}
    (h : WellFormed inp o stop item) (h' : WellFormed inp o stop' item') :
    stop = stop' ∧ item = item' := by
  have hbounds := h.bounds
  have hbounds' := h'.bounds
  have ho := toNat_ofNat_of_le hsize (n := o) (by omega)
  rw [← ho] at h h'
  have hcall := decodeAt_of_wellFormed hsize item (2 * inp.length + 2) h (by omega)
  have hcall' := decodeAt_of_wellFormed hsize item' (2 * inp.length + 2) h' (by omega)
  obtain ⟨hitem, hstop⟩ := Prod.mk.inj (Except.ok.inj (hcall.symm.trans hcall'))
  have hnat := congrArg UInt64.toNat hstop
  rw [toNat_ofNat_of_le hsize hbounds.2, toNat_ofNat_of_le hsize hbounds'.2] at hnat
  exact ⟨hnat, hitem⟩

/-- Items from the start of a range up to a position before its end are the first of the items that
fill it, and the next one lies in the range. -/
theorem Tiles.exists_next (hsize : inp.length < 2 ^ 63) {a stop : ℕ} {items before : List Decoded}
    (h : Tiles inp stop o items) (hbefore : Tiles inp a o before) (ha : a < stop) :
    ∃ item next, WellFormed inp a next item ∧ next ≤ stop := by
  induction before generalizing o items with
  | nil =>
    rw [Tiles] at hbefore
    subst hbefore
    cases items with
    | nil =>
      rw [Tiles] at h
      omega
    | cons item items =>
      rw [Tiles] at h
      obtain ⟨next, hitem, hrest⟩ := h
      exact ⟨item, next, hitem, (Nat.le_add_right _ _).trans hrest.length_le⟩
  | cons first before ih =>
    rw [Tiles] at hbefore
    obtain ⟨next, hfirst, hbefore⟩ := hbefore
    cases items with
    | nil =>
      rw [Tiles] at h
      have hlt := hfirst.bounds.1
      have hle := hbefore.length_le
      omega
    | cons item items =>
      rw [Tiles] at h
      obtain ⟨next', hitem, hrest⟩ := h
      obtain ⟨rfl, -⟩ := hfirst.unique hsize hitem
      exact ih hrest hbefore

end Unique

/-! ### What else is decoded -/

/-- The call of `decode` at `off` returns well-formed items only, and throws where there is none. -/
def Faithful (inp : Bytes) (off : UInt64) : Prop :=
  (∀ item stop, decodeFrom inp off = .ok (item, stop) →
    WellFormed inp off.toNat stop.toNat item) ∧
  ((¬ ∃ item stop, WellFormed inp off.toNat stop item) →
    ∃ e, decodeFrom inp off = .error e ∧ e.IsThrown)

/-- The positions at which a call that starts at `o` reads an item: its start, and in each list that
is read the end of the items so far, while that lies in the payload. -/
inductive Visited (inp : Bytes) (o : ℕ) : ℕ → Prop
  | start : Visited inp o o
  | item {p h L a : ℕ} {items : List Decoded} (hp : Visited inp o p) (hd : Header inp p 0xC0 h L)
      (hroom : p + h + L ≤ inp.length) (hitems : Tiles inp a (p + h) items)
      (ha : a < p + h + L) : Visited inp o a

/-- What is visited from a visited position is visited. -/
theorem Visited.trans {inp : Bytes} {o p q : ℕ} (hp : Visited inp o p) (hq : Visited inp p q) :
    Visited inp o q := by
  induction hq with
  | start => exact hp
  | item _ hd hroom hitems ha ih => exact .item ih hd hroom hitems ha

/-- A list header at position `o` declares a payload that ends past `2 ^ 64`. -/
def ListWraps (inp : Bytes) (o : ℕ) : Prop := ∃ h L, Header inp o 0xC0 h L ∧ 2 ^ 64 ≤ o + h + L

/-- The list at position `o` has an item across its end: well-formed items one behind the other, of
which the last begins in the payload and ends behind it. -/
def Straddles (inp : Bytes) (o : ℕ) : Prop :=
  ∃ h L items a item next, Header inp o 0xC0 h L ∧ o + h + L ≤ inp.length ∧
    Tiles inp a (o + h) items ∧ a < o + h + L ∧ WellFormed inp a next item ∧ o + h + L < next

section Sound

variable {inp : Bytes}

mutual

/-- A call that meets no list that wraps and no item across the end of a list returns well-formed
items. -/
theorem wellFormed_of_decodeAt (hsize : inp.length < 2 ^ 63) (fuel : ℕ) {off stop : UInt64}
    {item : Decoded}
    (hclean : ∀ p, Visited inp off.toNat p → ¬ ListWraps inp p ∧ ¬ Straddles inp p)
    (h : decodeAt fuel inp off = .ok (item, stop)) :
    WellFormed inp off.toNat stop.toNat item := by
  match fuel with
  | 0 => cases h
  | fuel + 1 =>
    cases returnCase_of_decodeAt hsize h with
    | byte hget hc =>
      rw [WellFormed, toNat_next hsize hget]
      exact ⟨rfl, .inl ⟨_, hget, hc, rfl, rfl⟩⟩
    | string hd hend =>
      rw [WellFormed, toNat_ofNat_of_le hsize hend]
      exact ⟨rfl, .inr ⟨_, _, hd, rfl, hend, rfl⟩⟩
    | @list hl L items last hd hend hitems =>
      obtain ⟨hwraps, hstraddles⟩ := hclean _ .start
      have hroom : off.toNat + hl + L ≤ inp.length := by
        rcases hend with hroom | hwrap
        · exact hroom
        · exact absurd ⟨hl, L, hd, hwrap⟩ hwraps
      have hstart := toNat_ofNat_of_le hsize hd.le_length
      have hstop := toNat_ofNat_of_le hsize hroom
      have hnil : Tiles inp (UInt64.ofNat (off.toNat + hl)).toNat (off.toNat + hl) [] := by
        rw [Tiles, hstart]
      have hloop := tiles_of_decodeItems hsize fuel ?_ ?_ hnil ?_ hitems
      · rw [WellFormed, hloop.1, hstop]
        refine ⟨rfl, hl, L, hd, rfl, hroom, ?_⟩
        have htiles := hloop.2
        rwa [hstart, hstop] at htiles
      · intro items a htiles ha p hp
        rw [hstop] at ha
        exact hclean p ((Visited.start.item hd hroom htiles ha).trans hp)
      · intro items a item next htiles ha hitem
        rw [hstop] at ha ⊢
        by_contra hnext
        exact hstraddles
          ⟨hl, L, items, a, item, next, hd, hroom, htiles, ha, hitem, Nat.lt_of_not_le hnext⟩
      · rw [hstart, hstop]
        exact Nat.le_add_right _ _

/-- A loop that never takes an item across its end stops at its end. -/
theorem tiles_of_decodeItems (hsize : inp.length < 2 ^ 63) (fuel : ℕ) {off stop last : UInt64}
    {start : ℕ} {before items : List Decoded}
    (hclean : ∀ items a, Tiles inp a start items → a < stop.toNat →
      ∀ p, Visited inp a p → ¬ ListWraps inp p ∧ ¬ Straddles inp p)
    (hinside : ∀ items a item next, Tiles inp a start items → a < stop.toNat →
      WellFormed inp a next item → next ≤ stop.toNat)
    (hbefore : Tiles inp off.toNat start before) (hoff : off.toNat ≤ stop.toNat)
    (h : decodeItems fuel inp off stop = .ok (items, last)) :
    last = stop ∧ Tiles inp stop.toNat off.toNat items := by
  match fuel with
  | 0 => cases h
  | fuel + 1 =>
    obtain ⟨hend, rfl, rfl⟩ | ⟨item, next, rest, hlt, hitem, hrest, rfl⟩ := decodeItems_cases h
    · rw [UInt64.lt_iff_toNat_lt] at hend
      have heq : last = stop := UInt64.toNat_inj.mp (by omega)
      subst heq
      exact ⟨rfl, by rw [Tiles]⟩
    · have hin := UInt64.lt_iff_toNat_lt.mp hlt
      have hfirst := wellFormed_of_decodeAt hsize fuel (hclean before _ hbefore hin) hitem
      have hnext := hinside before off.toNat item next.toNat hbefore hin hfirst
      obtain ⟨hlast, htiles⟩ := tiles_of_decodeItems hsize fuel hclean hinside
        (hbefore.append_singleton hfirst) hnext hrest
      rw [Tiles]
      exact ⟨hlast, next.toNat, hfirst, htiles⟩

end

end Sound

section Exact

variable {inp : Bytes} {o : ℕ}

/-- The items of a list whose payload is in the buffer. -/
theorem WellFormed.tiles_of_list {stop h L : ℕ} {item : Decoded} (hd : Header inp o 0xC0 h L)
    (hitem : WellFormed inp o stop item) : ∃ items, Tiles inp (o + h + L) (o + h) items := by
  obtain ⟨isList, b, items⟩ := item
  cases isList with
  | false =>
    rw [WellFormed] at hitem
    obtain ⟨-, ⟨c, hget, hc, -, -⟩ | ⟨_, _, hd', -⟩⟩ := hitem
    · exact absurd hget (hd.not_byte hc (by decide))
    · exact absurd hd hd'.not_list_of_string
  | true =>
    rw [WellFormed] at hitem
    obtain ⟨-, h', L', hd', rfl, -, htiles⟩ := hitem
    obtain ⟨rfl, rfl⟩ := hd.unique hd'
    exact ⟨items, htiles⟩

/-- At each position that is read inside a well-formed item there is a well-formed item. -/
theorem WellFormed.of_visited (hsize : inp.length < 2 ^ 63) {stop p : ℕ} {item : Decoded}
    (hitem : WellFormed inp o stop item) (hp : Visited inp o p) :
    ∃ item next, WellFormed inp p next item := by
  induction hp with
  | start => exact ⟨item, stop, hitem⟩
  | item _ hd _ hitems ha ih =>
    obtain ⟨list, next, hlist⟩ := ih
    obtain ⟨all, htiles⟩ := hlist.tiles_of_list hd
    obtain ⟨item, next, hitem, -⟩ := htiles.exists_next hsize hitems ha
    exact ⟨item, next, hitem⟩

/-- A list that wraps is no well-formed item. -/
theorem WellFormed.not_listWraps (hsize : inp.length < 2 ^ 63) {stop : ℕ} {item : Decoded}
    (hitem : WellFormed inp o stop item) : ¬ ListWraps inp o := by
  rintro ⟨h, L, hd, hwrap⟩
  have hbounds := hitem.bounds
  have hstop := hitem.stop_eq_of_list hd
  omega

/-- Nor is a list with an item across its end: the items that fill it are the only ones. -/
theorem WellFormed.not_straddles (hsize : inp.length < 2 ^ 63) {stop : ℕ} {item : Decoded}
    (hitem : WellFormed inp o stop item) : ¬ Straddles inp o := by
  rintro ⟨h, L, items, a, last, next, hd, -, htiles, ha, hlast, hnext⟩
  obtain ⟨all, hall⟩ := hitem.tiles_of_list hd
  obtain ⟨last', next', hlast', hle⟩ := hall.exists_next hsize htiles ha
  obtain ⟨rfl, -⟩ := hlast.unique hsize hlast'
  omega

end Exact

end Gambit.Rlp
