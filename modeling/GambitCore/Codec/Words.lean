import Mathlib.Data.List.Basic

/-!
# Words of a text

The non-empty pieces of a text between the characters that separate them: what a loop over `getline`
that skips empty lines sees, and what a loop over `>>` reads.

## Main definitions

* `Codec.words` — the non-empty pieces

## Main results

* `words_append_cons` — the words on the two sides of a separator
* `words_intercalate`, `words_flatMap_cons` — words that were put together are found again
-/

namespace Codec

variable {α : Type*} {sep : α → Bool}

/-- The non-empty pieces between separators. -/
def words (sep : α → Bool) (text : List α) : List (List α) :=
  (text.splitOnP sep).filter (!·.isEmpty)

@[simp] theorem words_nil : words sep [] = [] := by
  simp [words]

/-- Everything about words follows from this equation. -/
theorem words_append_cons {c : α} (hc : sep c) (x y : List α) :
    words sep (x ++ c :: y) = words sep x ++ words sep y := by
  rw [words, List.splitOnP_append_cons x y hc, List.filter_append]
  rfl

theorem words_cons {c : α} (hc : sep c) (x : List α) : words sep (c :: x) = words sep x := by
  simpa using words_append_cons hc [] x

/-- A text without separators is one word. -/
theorem words_of_forall {w : List α} (hne : w ≠ []) (h : ∀ c ∈ w, sep c = false) :
    words sep w = [w] := by
  have hsplit : w.splitOnP sep = [w] :=
    List.splitOnP_eq_singleton h
  rw [words, hsplit]
  simpa using hne

variable {ws : List (List α)}

/-- Words that are each preceded by a separator. -/
theorem words_flatMap_cons {c : α} (hc : sep c)
    (h : ∀ w ∈ ws, w ≠ [] ∧ ∀ d ∈ w, sep d = false) : words sep (ws.flatMap (c :: ·)) = ws := by
  induction ws with
  | nil => exact words_nil
  | cons w ws ih =>
    obtain ⟨⟨hne, hfree⟩, hrest⟩ := List.forall_mem_cons.mp h
    have hfirst : words sep (w ++ ws.flatMap (c :: ·)) =
        words sep w ++ words sep (ws.flatMap (c :: ·)) := by
      cases ws with
      | nil => simp
      | cons w' ws =>
        rw [List.flatMap_cons, List.cons_append, words_append_cons hc, words_cons hc]
    rw [List.flatMap_cons, List.cons_append, words_cons hc, hfirst, words_of_forall hne hfree,
      ih hrest]
    rfl

/-- Words that are joined by a separator. -/
theorem words_intercalate {c : α} (hc : sep c)
    (h : ∀ w ∈ ws, w ≠ [] ∧ ∀ d ∈ w, sep d = false) : words sep ([c].intercalate ws) = ws := by
  induction ws with
  | nil => exact words_nil
  | cons w ws ih =>
    obtain ⟨⟨hne, hfree⟩, hrest⟩ := List.forall_mem_cons.mp h
    cases ws with
    | nil => simpa using words_of_forall hne hfree
    | cons w' ws =>
      rw [List.intercalate_cons_cons, List.append_assoc, List.singleton_append,
        words_append_cons hc, words_of_forall hne hfree, ih hrest]
      rfl

end Codec
