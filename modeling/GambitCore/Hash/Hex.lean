import GambitCore.Basic
import GambitCore.Codec.NumberText

/-!
# Hexadecimal text

`gambit::toHex` and `gambit::fromHex` of `hash.cpp`. The encoder writes two
lower-case digits a byte; the decoder strips one `0x` or `0X`, takes digits of
either case and throws on an odd length or a foreign character.

## Main results

* `fromHex_toHex`, `fromHex_prefixed_toHex` — decoding undoes encoding, with and
  without the prefix the callers add
* `toHex_injective` — the text determines the bytes
* `returns_fromHex_iff`, `toHex_of_fromHex` — which texts the decoder accepts, and what it reads
  from them
-/

namespace Gambit

/-- The lower-case digit `std::hex` prints for a value below 16. -/
def hexDigit (n : UInt8) : UInt8 := if n < 10 then n + 48 else n + 87

/-- `toHex`: two digits a byte, padded with `0`. -/
def toHex (data : Bytes) : Str :=
  data.flatMap fun b : UInt8 => [hexDigit (b >>> 4), hexDigit (b &&& 0x0F)]

/-- `hexCharToNibble`. -/
def hexCharToNibble (c : UInt8) : Result UInt8 :=
  if 48 ≤ c ∧ c ≤ 57 then .ok (c - 48)
  else if 97 ≤ c ∧ c ≤ 102 then .ok (10 + (c - 97))
  else if 65 ≤ c ∧ c ≤ 70 then .ok (10 + (c - 65))
  else runtimeError "Invalid hex char"

/-- Remove a leading `0x` or `0X`, the `rfind(…, 0) == 0` test and `substr(2)`. -/
def stripHexPrefix : Str → Str
  | 48 :: 120 :: rest => rest
  | 48 :: 88 :: rest => rest
  | s => s

/-- The digit loop of `fromHex`, two characters at a time. -/
def fromHexPairs : Str → Result Bytes
  | hi :: lo :: rest => do
    let h ← hexCharToNibble hi
    let l ← hexCharToNibble lo
    let out ← fromHexPairs rest
    return ((h <<< 4) ||| l) :: out
  | _ => .ok []

/-- `fromHex`. -/
def fromHex (hex : Str) : Result Bytes :=
  let s := stripHexPrefix hex
  if s.length % 2 ≠ 0 then runtimeError "Hex string length must be even"
  else fromHexPairs s

@[simp] theorem toHex_cons (b : UInt8) (bs : Bytes) :
    toHex (b :: bs) = hexDigit (b >>> 4) :: hexDigit (b &&& 0x0F) :: toHex bs := rfl

@[simp] theorem length_toHex (bs : Bytes) : (toHex bs).length = 2 * bs.length := by
  induction bs with
  | nil => rfl
  | cons b bs ih => simp [ih]; omega

/-- The lower case of a letter. -/
def toLower (c : UInt8) : UInt8 := if 65 ≤ c ∧ c ≤ 90 then c + 32 else c

/-- The value read from a digit prints as its lower case. -/
theorem hexCharToNibble_eq (c : UInt8) :
    (Codec.isDigit 16 c = true ∧ ∃ n : Fin 16,
        hexCharToNibble c = .ok (UInt8.ofNat n) ∧ hexDigit (UInt8.ofNat n) = toLower c) ∨
      (Codec.isDigit 16 c = false ∧ hexCharToNibble c = runtimeError "Invalid hex char") := by
  revert c
  exact Codec.forall_byte (by decide +kernel)

theorem returns_hexCharToNibble_iff {c : UInt8} :
    Returns (hexCharToNibble c) ↔ Codec.isDigit 16 c := by
  rcases hexCharToNibble_eq c with ⟨hdigit, n, hn, -⟩ | ⟨hdigit, herr⟩
  · simp [Returns, hdigit, hn]
  · simp [Returns, hdigit, herr, runtimeError]

/-- A byte is read back from its two digits. -/
theorem hexCharToNibble_hexDigit (b : UInt8) :
    hexCharToNibble (hexDigit (b >>> 4)) = .ok (b >>> 4) ∧
      hexCharToNibble (hexDigit (b &&& 0x0F)) = .ok (b &&& 0x0F) ∧
      ((b >>> 4) <<< 4) ||| (b &&& 0x0F) = b := by
  revert b
  exact Codec.forall_byte (by decide +kernel)

/-- The text has digits only. -/
theorem returns_of_mem_toHex {bs : Bytes} {c : UInt8} (h : c ∈ toHex bs) :
    Returns (hexCharToNibble c) := by
  obtain ⟨b, -, hc⟩ := List.mem_flatMap.mp h
  obtain ⟨hhi, hlo, -⟩ := hexCharToNibble_hexDigit b
  simp only [List.mem_cons, List.not_mem_nil, or_false] at hc
  rcases hc with rfl | rfl
  · exact ⟨_, hhi⟩
  · exact ⟨_, hlo⟩

/-- Digits never look like a mark. -/
theorem stripHexPrefix_of_isDigit {s : Str} (h : ∀ c ∈ s, Codec.isDigit 16 c) :
    stripHexPrefix s = s := by
  unfold stripHexPrefix
  split
  · next rest => exact absurd (h 120 (by simp)) (by decide)
  · next rest => exact absurd (h 88 (by simp)) (by decide)
  · rfl

theorem isDigit_of_mem_toHex {bs : Bytes} {c : UInt8} (h : c ∈ toHex bs) : Codec.isDigit 16 c :=
  returns_hexCharToNibble_iff.mp (returns_of_mem_toHex h)

/-- The digits of a byte string never look like a prefix. -/
theorem stripHexPrefix_toHex (bs : Bytes) : stripHexPrefix (toHex bs) = toHex bs :=
  stripHexPrefix_of_isDigit fun _ => isDigit_of_mem_toHex

theorem fromHexPairs_toHex (bs : Bytes) : fromHexPairs (toHex bs) = .ok bs := by
  induction bs with
  | nil => rfl
  | cons b bs ih =>
    obtain ⟨hhi, hlo, hb⟩ := hexCharToNibble_hexDigit b
    simp only [toHex_cons, fromHexPairs, hhi, hlo, ih, hb, bind, pure, Except.bind, Except.pure]

/-- Decoding undoes encoding. -/
theorem fromHex_toHex (bs : Bytes) : fromHex (toHex bs) = .ok bs := by
  simp [fromHex, stripHexPrefix_toHex, fromHexPairs_toHex]

theorem stripHexPrefix_prefixed (s : Str) : stripHexPrefix (str "0x" ++ s) = s := rfl

/-- Decoding undoes encoding through the `0x` the callers add. -/
theorem fromHex_prefixed_toHex (bs : Bytes) : fromHex (str "0x" ++ toHex bs) = .ok bs := by
  simp [fromHex, stripHexPrefix_prefixed, fromHexPairs_toHex]

theorem length_of_fromHexPairs {s : Str} {out : Bytes} (h : fromHexPairs s = .ok out) :
    2 * out.length ≤ s.length := by
  fun_induction fromHexPairs s generalizing out with
  | case1 hi lo rest ih =>
    obtain ⟨hn, -, h⟩ := bind_eq_ok.mp h
    obtain ⟨ln, -, h⟩ := bind_eq_ok.mp h
    obtain ⟨tail, htail, h⟩ := bind_eq_ok.mp h
    obtain rfl := Except.ok.inj h
    have hle := ih htail
    simp only [List.length_cons]
    omega
  | case2 s hs =>
    obtain rfl := Except.ok.inj h
    exact Nat.zero_le _

theorem length_stripHexPrefix_le (s : Str) : (stripHexPrefix s).length ≤ s.length := by
  unfold stripHexPrefix
  split
  · exact Nat.le_add_right _ 2
  · exact Nat.le_add_right _ 2
  · exact Nat.le_refl _

/-- Two characters for each byte. -/
theorem length_of_fromHex {hex : Str} {out : Bytes} (h : fromHex hex = .ok out) :
    2 * out.length ≤ hex.length := by
  rw [fromHex] at h
  split at h
  · cases h
  · exact Nat.le_trans (length_of_fromHexPairs h) (length_stripHexPrefix_le hex)

/-- The text determines the bytes. -/
theorem toHex_injective : Function.Injective toHex := by
  intro a b h
  have hb := fromHex_toHex b
  rw [← h, fromHex_toHex a] at hb
  exact Except.ok.inj hb

/-! ### The accepted texts -/

/-- An even number of hexadecimal digits behind at most one mark `0x` or `0X`. -/
structure IsHexText (text digits : Str) : Prop where
  text_eq : text = digits ∨ text = str "0x" ++ digits ∨ text = str "0X" ++ digits
  even : digits.length % 2 = 0
  isDigit : ∀ c ∈ digits, Codec.isDigit 16 c

/-- A byte put together from two half bytes has their digits. -/
theorem toHex_nibbles (h l : Fin 16) (bs : Bytes) :
    toHex (((UInt8.ofNat h <<< 4) ||| UInt8.ofNat l) :: bs) =
      hexDigit (UInt8.ofNat h) :: hexDigit (UInt8.ofNat l) :: toHex bs := by
  have hsplit : ∀ h l : Fin 16, ((UInt8.ofNat h <<< 4) ||| UInt8.ofNat l) >>> 4 = UInt8.ofNat h ∧
      ((UInt8.ofNat h <<< 4) ||| UInt8.ofNat l) &&& 0x0F = UInt8.ofNat l := by decide +kernel
  rw [toHex_cons, (hsplit h l).1, (hsplit h l).2]

theorem hexDigit_of_hexCharToNibble {c n : UInt8} (h : hexCharToNibble c = .ok n) :
    ∃ k : Fin 16, n = UInt8.ofNat k ∧ hexDigit n = toLower c := by
  rcases hexCharToNibble_eq c with ⟨-, k, hk, hprint⟩ | ⟨-, herr⟩
  · obtain rfl := Except.ok.inj (h.symm.trans hk)
    exact ⟨k, rfl, hprint⟩
  · cases h.symm.trans herr

/-- A text of even length without two characters at its head is empty. -/
theorem eq_nil_of_even {s : Str} (heven : s.length % 2 = 0)
    (hs : ∀ hi lo rest, s = hi :: lo :: rest → False) : s = [] := by
  rcases s with _ | ⟨hi, _ | ⟨lo, rest⟩⟩
  · rfl
  · simp at heven
  · exact absurd rfl (hs hi lo rest)

/-- The digit loop returns on digits and on nothing else. -/
theorem returns_fromHexPairs_iff {s : Str} (heven : s.length % 2 = 0) :
    Returns (fromHexPairs s) ↔ ∀ c ∈ s, Codec.isDigit 16 c := by
  fun_induction fromHexPairs s with
  | case1 hi lo rest ih =>
    have hrest : rest.length % 2 = 0 := by
      simp only [List.length_cons] at heven
      omega
    rw [List.forall_mem_cons, List.forall_mem_cons, ← ih hrest, ← returns_hexCharToNibble_iff,
      ← returns_hexCharToNibble_iff]
    simp [Returns, bind_eq_ok, pure, Except.pure]
  | case2 s hs =>
    obtain rfl := eq_nil_of_even heven hs
    simp [Returns]

/-- What the digit loop reads prints as the digits in lower case. -/
theorem toHex_of_fromHexPairs {s : Str} {out : Bytes} (heven : s.length % 2 = 0)
    (h : fromHexPairs s = .ok out) : toHex out = s.map toLower := by
  fun_induction fromHexPairs s generalizing out with
  | case1 hi lo rest ih =>
    obtain ⟨hn, hhi, h⟩ := bind_eq_ok.mp h
    obtain ⟨ln, hlo, h⟩ := bind_eq_ok.mp h
    obtain ⟨tail, htail, h⟩ := bind_eq_ok.mp h
    obtain rfl := Except.ok.inj h
    obtain ⟨k, rfl, hk⟩ := hexDigit_of_hexCharToNibble hhi
    obtain ⟨m, rfl, hm⟩ := hexDigit_of_hexCharToNibble hlo
    have hrest : rest.length % 2 = 0 := by
      simp only [List.length_cons] at heven
      omega
    rw [toHex_nibbles, hk, hm, ih hrest htail]
    rfl
  | case2 s hs =>
    obtain rfl := Except.ok.inj h
    obtain rfl := eq_nil_of_even heven hs
    rfl

theorem stripHexPrefix_cases (s : Str) :
    s = stripHexPrefix s ∨ s = str "0x" ++ stripHexPrefix s ∨ s = str "0X" ++ stripHexPrefix s := by
  unfold stripHexPrefix
  split
  · exact .inr (.inl rfl)
  · exact .inr (.inr rfl)
  · exact .inl rfl

theorem IsHexText.stripHexPrefix_eq {text digits : Str} (h : IsHexText text digits) :
    stripHexPrefix text = digits := by
  rcases h.text_eq with rfl | rfl | rfl
  · exact stripHexPrefix_of_isDigit h.isDigit
  · rfl
  · rfl

theorem IsHexText.fromHex_eq {text digits : Str} (h : IsHexText text digits) :
    fromHex text = fromHexPairs digits := by
  simp [fromHex, h.stripHexPrefix_eq, h.even]

/-- The decoder accepts the texts of digits, marked or not, and no others. -/
theorem returns_fromHex_iff {text : Str} :
    Returns (fromHex text) ↔ ∃ digits, IsHexText text digits := by
  constructor
  · intro h
    rw [fromHex] at h
    split at h
    · obtain ⟨out, hout⟩ := h
      cases hout
    · next heven =>
      have heven := Decidable.not_not.mp heven
      exact ⟨stripHexPrefix text, stripHexPrefix_cases text, heven,
        (returns_fromHexPairs_iff heven).mp h⟩
  · rintro ⟨digits, h⟩
    rw [h.fromHex_eq]
    exact (returns_fromHexPairs_iff h.even).mpr h.isDigit

/-- What the decoder reads prints as the digits in lower case. -/
theorem IsHexText.toHex_of_fromHex {text digits : Str} {out : Bytes} (h : IsHexText text digits)
    (hout : fromHex text = .ok out) : toHex out = digits.map toLower :=
  toHex_of_fromHexPairs h.even (h.fromHex_eq.symm.trans hout)

/-- The digits determine what is read. -/
theorem IsHexText.fromHex_eq_ok_iff {text digits : Str} {out : Bytes} (h : IsHexText text digits) :
    fromHex text = .ok out ↔ toHex out = digits.map toLower := by
  refine ⟨h.toHex_of_fromHex, fun hprint => ?_⟩
  obtain ⟨out', hout'⟩ := returns_fromHex_iff.mpr ⟨digits, h⟩
  rw [hout', toHex_injective ((h.toHex_of_fromHex hout').trans hprint.symm)]

theorem isHexText_toHex (bs : Bytes) : IsHexText (toHex bs) (toHex bs) where
  text_eq := .inl rfl
  even := by simp
  isDigit _ := isDigit_of_mem_toHex

theorem map_toLower_toHex (bs : Bytes) : (toHex bs).map toLower = toHex bs :=
  ((isHexText_toHex bs).toHex_of_fromHex (fromHex_toHex bs)).symm

end Gambit
