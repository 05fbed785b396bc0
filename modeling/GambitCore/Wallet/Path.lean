import GambitCore.Basic
import GambitCore.Codec.NumberText
import GambitCore.Codec.Words

/-!
# Derivation paths

`Wallet::parseBIP32Path`. The text behind the `m` is cut at each `/`, empty components are skipped,
and a component is read by `std::stoul`, which takes a sign and white space before the digits and
any text behind them; the number is then cut to 32 bits. So much more is read than the paths of
BIP32, and different texts give the same indices.

## Main definitions

* `parseBIP32Path`
* `PathStep`, `pathText` — the paths of BIP32
* `ReadStrictly` — a text that is read is such a path, and is read as its indices

## Main results

* `parseBIP32Path_pathText` — the paths of BIP32 are read as they are meant
* `parseBIP32Path_renderPath` — every list of indices is read back from its text
* `readStrictly_iff` — which texts are read strictly
-/

namespace Gambit.Wallet

open Codec

/-! ### The parser -/

/-- `std::stoul`. Both of its exceptions carry its name. -/
def stoul (text : Str) : Result UInt64 :=
  match strtoul 10 text with
  | .ok v => .ok v
  | .error _ => runtimeError "stoul"

/-- The component ends in `'`. -/
def isHardened (component : Str) : Bool := component.getLast? = some 39

/-- The component without the `'`. -/
def stem (component : Str) : Str := if isHardened component then component.dropLast else component

/-- The index of a component: the number narrowed to 32 bits, and for a hardened one the addition of
the machine type. -/
def parseComponent (component : Str) : Result UInt32 := do
  let index ← stoul (stem component)
  return if isHardened component then index.toUInt32 + 0x80000000 else index.toUInt32

/-- What the loop over `std::getline` does not skip. -/
def components (path : Str) : List Str := words (· == 47) path.tail

/-- `parseBIP32Path`. -/
def parseBIP32Path (path : Str) : Result (List UInt32) :=
  if path.head? ≠ some 109 then runtimeError "Invalid BIP32 path: must start with 'm'"
  else (components path).mapM parseComponent

/-! ### Paths -/

/-- A step of a path: a number below `2 ^ 31` in decimal digits, hardened or not. -/
structure PathStep where
  digits : Str
  value : ℕ
  hardened : Bool
  isNumber : IsNumber 10 digits value
  value_lt : value < 2 ^ 31

/-- `n` or `n'`. -/
def PathStep.text (s : PathStep) : Str := if s.hardened then s.digits ++ [39] else s.digits

/-- The index a step stands for. -/
def PathStep.index (s : PathStep) : ℕ := if s.hardened then s.value + 2 ^ 31 else s.value

/-- `m` and the steps, each behind a `/`. -/
def pathText (steps : List PathStep) : Str := 109 :: (steps.map PathStep.text).flatMap (47 :: ·)

/-- If the text is read at all, it is a path, and is read as the indices of its steps. -/
def ReadStrictly (path : Str) : Prop :=
  ∀ indices, parseBIP32Path path = .ok indices →
    ∃ steps, path = pathText steps ∧ indices.map UInt32.toNat = steps.map PathStep.index

/-! ### Reading a path -/

namespace PathStep

variable (s : PathStep)

/-- The characters of a step are digits and the mark. -/
theorem mem_text {c : UInt8} (h : c ∈ s.text) : isDigit 10 c ∨ c = 39 := by
  unfold text at h
  split at h
  · rcases List.mem_append.mp h with hdigit | hmark
    · exact Or.inl (s.isNumber.digits c hdigit)
    · exact Or.inr (List.mem_singleton.mp hmark)
  · exact Or.inl (s.isNumber.digits c h)

theorem text_ne_nil : s.text ≠ [] := by
  unfold text
  split
  · simp
  · exact s.isNumber.ne_nil

theorem not_slash {c : UInt8} (h : c ∈ s.text) : (c == 47) = false := by
  rw [beq_eq_false_iff_ne]
  rintro rfl
  rcases s.mem_text h with hdigit | hmark
  · exact absurd hdigit (by decide)
  · exact absurd hmark (by decide)

theorem isHardened_text : isHardened s.text = s.hardened := by
  cases hs : s.hardened with
  | true => simp [isHardened, text, hs]
  | false =>
    -- The last character is a digit.
    have hlast : s.digits.getLast? ≠ some 39 := by
      intro h
      exact absurd (s.isNumber.digits 39 (List.mem_of_getLast? h)) (by decide)
    simp [isHardened, text, hs, hlast]

theorem stem_text : stem s.text = s.digits := by
  rw [stem, isHardened_text]
  cases hs : s.hardened <;> simp [text, hs]

theorem index_lt : s.index < 2 ^ 32 := by
  have hlt := s.value_lt
  unfold index
  split <;> omega

theorem stoul_digits : stoul s.digits = .ok (UInt64.ofNat s.value) := by
  have hlt := s.value_lt
  have hread := strtoul_of_isNumber (by decide) s.isNumber
  rw [if_neg (by omega)] at hread
  rw [stoul, hread]

/-- A step is read as its index. -/
theorem parseComponent_text : parseComponent s.text = .ok (UInt32.ofNat s.index) := by
  have hlt := s.value_lt
  have hnarrow : (UInt64.ofNat s.value).toUInt32 = UInt32.ofNat s.value := by
    apply UInt32.toNat_inj.mp
    simp
  rw [parseComponent, stem_text, stoul_digits, isHardened_text, index]
  simp only [bind, Except.bind, pure, Except.pure, hnarrow]
  cases s.hardened with
  | true =>
    rw [if_pos rfl, if_pos rfl, UInt32.ofNat_add]
    rfl
  | false => rfl

end PathStep

theorem components_pathText (steps : List PathStep) :
    components (pathText steps) = steps.map PathStep.text := by
  apply words_flatMap_cons rfl
  intro w hw
  obtain ⟨s, -, rfl⟩ := List.mem_map.mp hw
  exact ⟨s.text_ne_nil, fun c hc => s.not_slash hc⟩

/-- The paths of BIP32 are read as they are meant. -/
theorem parseBIP32Path_pathText (steps : List PathStep) :
    parseBIP32Path (pathText steps) = .ok (steps.map fun s => UInt32.ofNat s.index) := by
  have hstart : ¬ (pathText steps).head? ≠ some 109 := by simp [pathText]
  rw [parseBIP32Path, if_neg hstart, components_pathText, List.mapM_map]
  exact mapM_eq_ok_map fun s _ => s.parseComponent_text

theorem toNat_index (s : PathStep) : (UInt32.ofNat s.index).toNat = s.index :=
  UInt32.toNat_ofNat_of_lt' s.index_lt

/-! ### Printing a list of indices -/

/-- `n` for an index below `2 ^ 31`, and `k'` for `k + 2 ^ 31`. -/
def indexText (n : UInt32) : Str :=
  if n.toNat < 2 ^ 31 then str (toString n.toNat) else str (toString (n.toNat - 2 ^ 31)) ++ [39]

/-- `m` and the indices, each behind a `/`. -/
def renderPath (indices : List UInt32) : Str := 109 :: indices.flatMap fun n => 47 :: indexText n

/-- The step that prints as an index. -/
def PathStep.ofIndex (n : UInt32) : PathStep where
  digits := str (toString (n.toNat % 2 ^ 31))
  value := n.toNat % 2 ^ 31
  hardened := 2 ^ 31 ≤ n.toNat
  isNumber := isNumber_toString _
  value_lt := Nat.mod_lt _ (by decide)

theorem PathStep.text_ofIndex (n : UInt32) : (PathStep.ofIndex n).text = indexText n := by
  have hlt := n.toNat_lt
  by_cases h : n.toNat < 2 ^ 31
  · simp only [text, ofIndex, indexText, h, Nat.mod_eq_of_lt h, Nat.not_le_of_lt h, decide_false,
      Bool.false_eq_true, if_true, if_false]
  · have hmod : n.toNat % 2 ^ 31 = n.toNat - 2 ^ 31 := by omega
    simp only [text, ofIndex, indexText, h, hmod, Nat.le_of_not_lt h, decide_true, if_true,
      if_false]

theorem PathStep.index_ofIndex (n : UInt32) : (PathStep.ofIndex n).index = n.toNat := by
  have hlt := n.toNat_lt
  simp only [index, ofIndex, decide_eq_true_eq]
  split <;> omega

theorem renderPath_eq_pathText (indices : List UInt32) :
    renderPath indices = pathText (indices.map PathStep.ofIndex) := by
  simp only [renderPath, pathText, List.flatMap_map, PathStep.text_ofIndex]

/-- Every list of indices is read back from its text. -/
theorem parseBIP32Path_renderPath (indices : List UInt32) :
    parseBIP32Path (renderPath indices) = .ok indices := by
  rw [renderPath_eq_pathText, parseBIP32Path_pathText, List.map_map]
  have hindex : ∀ n ∈ indices,
      ((fun s : PathStep => UInt32.ofNat s.index) ∘ PathStep.ofIndex) n = id n := by
    intro n _
    simp only [Function.comp_apply, PathStep.index_ofIndex, UInt32.ofNat_toNat, id]
  rw [List.map_congr_left hindex, List.map_id]

example : renderPath [44 + 2 ^ 31, 60 + 2 ^ 31, 2 ^ 31, 0, 7] = str "m/44'/60'/0'/0/7" := by decide

/-! ### Which texts are read strictly -/

theorem returns_parseComponent_iff (c : Str) :
    Returns (parseComponent c) ↔ ∀ e, strtoul 10 (stem c) ≠ .error e := by
  rw [parseComponent, returns_bind_pure_iff, stoul]
  cases strtoul 10 (stem c) with
  | ok v => simp [Returns]
  | error e => simp [Returns, runtimeError]

theorem returns_components {path : Str} {indices : List UInt32}
    (h : parseBIP32Path path = .ok indices) :
    ∀ c ∈ components path, Returns (parseComponent c) := by
  unfold parseBIP32Path at h
  split at h
  · cases h
  · exact returns_mapM_iff.mp ⟨indices, h⟩

/-- A text is read strictly exactly when it is a path of BIP32, or when it is refused: it does not
begin with `m`, or `std::stoul` throws on one of its components. -/
theorem readStrictly_iff (path : Str) :
    ReadStrictly path ↔ (∃ steps, path = pathText steps) ∨ path.head? ≠ some 109 ∨
      ∃ c ∈ components path, ∃ e, strtoul 10 (stem c) = .error e := by
  constructor
  · intro h
    by_contra hno
    simp only [not_or, not_exists, not_and, not_not] at hno
    obtain ⟨hpath, hstart, hread⟩ := hno
    have hreturns : Returns (parseBIP32Path path) := by
      rw [parseBIP32Path, if_neg (not_not.mpr hstart), returns_mapM_iff]
      intro c hc
      exact (returns_parseComponent_iff c).mpr fun e => hread c hc e
    obtain ⟨indices, hindices⟩ := hreturns
    obtain ⟨steps, hsteps, -⟩ := h indices hindices
    exact hpath steps hsteps
  · rintro (⟨steps, rfl⟩ | hstart | ⟨c, hc, e, he⟩) indices hparse
    · refine ⟨steps, rfl, ?_⟩
      rw [parseBIP32Path_pathText] at hparse
      obtain rfl := Except.ok.inj hparse
      rw [List.map_map]
      exact List.map_congr_left fun s _ => toNat_index s
    · rw [parseBIP32Path, if_pos hstart] at hparse
      cases hparse
    · have hreturns := returns_components hparse c hc
      exact absurd he ((returns_parseComponent_iff c).mp hreturns e)

/-- The number `2 ^ 32` is cut to 0, so that another path is read like `m/0`. -/
theorem not_readStrictly_wrapped :
    parseBIP32Path (str "m/0") = .ok [0] ∧ parseBIP32Path (str "m/4294967296") = .ok [0] ∧
      ¬ ReadStrictly (str "m/4294967296") := by
  have hread : parseBIP32Path (str "m/4294967296") = .ok [0] := by decide +kernel
  refine ⟨by decide +kernel, hread, fun h => ?_⟩
  obtain ⟨steps, htext, -⟩ := h _ hread
  -- The only step of such a path would have the digits of `2 ^ 32`.
  have hone : steps.map PathStep.text = [str "4294967296"] := by
    rw [← components_pathText, ← htext]
    decide
  obtain ⟨s, rfl, hs⟩ := List.map_eq_singleton_iff.mp hone
  have hdigits : s.digits = str "4294967296" := by
    rw [← s.stem_text, hs]
    decide
  have hvalue : digitsValue 10 (str "4294967296") = s.value := by
    rw [← hdigits]
    exact s.isNumber.value
  have hbig : digitsValue 10 (str "4294967296") = 2 ^ 32 := by decide
  have hlt := s.value_lt
  omega

end Gambit.Wallet
