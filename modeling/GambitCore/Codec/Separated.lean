import Mathlib.Algebra.Order.BigOperators.Group.List
import Mathlib.Algebra.Ring.Nat

/-!
# Fields with a separator

A text made of fields, each followed by a separator that is not escaped. Fields that are free of the
separator can be read back from the text. A field that holds it can give a part away to its
neighbour, and the text stays the same.

In the second form the fields are followed by one more separator and a last field. The two
separators in a row are then the end of the list, unless the last field has such a pair as well.

## Main definitions

* `Codec.terminated` — each field with a separator behind it

## Main results

* `terminated_injective` — lists of fields without separators, of whatever length
* `terminated_determines_iff` — the texts that determine a list of known length
* `terminated_append_determines_iff` — the same with a last field behind the list
-/

namespace Codec

variable {α : Type*} {sep : α}

/-- Two ways to split a text at a separator: the same, or one is further to the right. -/
theorem append_cons_eq_cases {x y r s : List α} (h : x ++ sep :: r = y ++ sep :: s) :
    x = y ∧ r = s ∨ (∃ m, x = y ++ sep :: m ∧ s = m ++ sep :: r) ∨
      ∃ m, y = x ++ sep :: m ∧ r = m ++ sep :: s := by
  rcases List.append_eq_append_iff.mp h with ⟨m, hy, hr⟩ | ⟨m, hx, hs⟩
  · cases m with
    | nil =>
      rw [List.append_nil] at hy
      exact .inl ⟨hy.symm, List.tail_eq_of_cons_eq hr⟩
    | cons c m =>
      obtain ⟨rfl, htail⟩ := List.cons.inj hr
      exact .inr (.inr ⟨m, hy, htail⟩)
  · cases m with
    | nil =>
      rw [List.append_nil] at hx
      exact .inl ⟨hx, (List.tail_eq_of_cons_eq hs).symm⟩
    | cons c m =>
      obtain ⟨rfl, htail⟩ := List.cons.inj hs
      exact .inr (.inl ⟨m, hx, htail⟩)

/-- The first separator is the same in both. -/
theorem append_cons_inj_left {x y r s : List α} (hx : sep ∉ x) (hy : sep ∉ y)
    (h : x ++ sep :: r = y ++ sep :: s) : x = y ∧ r = s := by
  rcases append_cons_eq_cases h with heq | ⟨m, rfl, -⟩ | ⟨m, rfl, -⟩
  · exact heq
  · exact absurd (by simp) hx
  · exact absurd (by simp) hy

/-- The last separator is the same in both. -/
theorem append_cons_inj_right {x y r s : List α} (hr : sep ∉ r) (hs : sep ∉ s)
    (h : x ++ sep :: r = y ++ sep :: s) : x = y ∧ r = s := by
  rcases append_cons_eq_cases h with heq | ⟨m, -, rfl⟩ | ⟨m, -, rfl⟩
  · exact heq
  · exact absurd (by simp) hs
  · exact absurd (by simp) hr

/-- Each field with a separator behind it. -/
def terminated (sep : α) (fields : List (List α)) : List α := fields.flatMap (· ++ [sep])

@[simp] theorem terminated_nil : terminated sep [] = [] := rfl

@[simp] theorem terminated_cons (f : List α) (fs : List (List α)) :
    terminated sep (f :: fs) = f ++ sep :: terminated sep fs := by
  rw [terminated, List.flatMap_cons, List.append_assoc, List.singleton_append, terminated]

theorem terminated_append (fs gs : List (List α)) :
    terminated sep (fs ++ gs) = terminated sep fs ++ terminated sep gs :=
  List.flatMap_append

theorem length_terminated (fs : List (List α)) :
    (terminated sep fs).length = (fs.map List.length).sum + fs.length := by
  induction fs with
  | nil => rfl
  | cons f fs ih =>
    rw [terminated_cons, List.length_append, List.length_cons, ih, List.map_cons, List.sum_cons,
      List.length_cons]
    omega

/-- A text with a field in it ends with a separator. -/
theorem exists_terminated_eq {fs : List (List α)} (h : fs ≠ []) :
    ∃ text, terminated sep fs = text ++ [sep] := by
  obtain ⟨init, last, rfl⟩ := (List.eq_nil_or_concat' fs).resolve_left h
  refine ⟨terminated sep init ++ last, ?_⟩
  rw [terminated_append, terminated_cons, terminated_nil, List.append_assoc]

/-- At least as many fields as `fs`, read out of a text that starts with the fields `fs` free of
separators: they are `fs` again, or they reach into what follows and end there with a separator. -/
theorem cases_of_terminated_append {fs gs : List (List α)} {r s : List α}
    (hfree : ∀ f ∈ fs, sep ∉ f) (hlen : fs.length ≤ gs.length)
    (h : terminated sep gs ++ s = terminated sep fs ++ r) :
    gs = fs ∧ s = r ∨ ∃ text, r = text ++ sep :: s := by
  induction fs generalizing gs with
  | nil =>
    cases gs with
    | nil => exact .inl ⟨rfl, h⟩
    | cons g gs =>
      obtain ⟨text, htext⟩ : ∃ text, terminated sep (g :: gs) = text ++ [sep] :=
        exists_terminated_eq (List.cons_ne_nil g gs)
      rw [htext, List.append_assoc] at h
      exact .inr ⟨text, h.symm⟩
  | cons f fs ih =>
    obtain ⟨hf, hfs⟩ := List.forall_mem_cons.mp hfree
    cases gs with
    | nil => exact absurd hlen (by simp)
    | cons g gs =>
      have hle := Nat.le_of_succ_le_succ hlen
      simp only [terminated_cons, List.append_assoc, List.cons_append] at h
      rcases append_cons_eq_cases h with ⟨rfl, htail⟩ | ⟨m, -, htail⟩ | ⟨m, rfl, -⟩
      · rcases ih hfs hle htail with ⟨rfl, rfl⟩ | hreach
        · exact .inl ⟨rfl, rfl⟩
        · exact .inr hreach
      · -- The rest of the first field counts as one field more.
        have hmore : terminated sep (m :: gs) ++ s = terminated sep fs ++ r := by
          rw [terminated_cons, List.append_assoc, List.cons_append, htail]
        have hlonger : fs.length ≤ (m :: gs).length := Nat.le_succ_of_le hle
        rcases ih hfs hlonger hmore with ⟨rfl, -⟩ | hreach
        · exact absurd hle (by simp)
        · exact .inr hreach
      · exact absurd (by simp) hf

/-- Fields without separators are determined by their text. -/
theorem terminated_injective {fs gs : List (List α)} (hfs : ∀ f ∈ fs, sep ∉ f)
    (hgs : ∀ g ∈ gs, sep ∉ g) (h : terminated sep fs = terminated sep gs) : fs = gs := by
  have happend : terminated sep fs ++ [] = terminated sep gs ++ [] := by rw [h]
  rcases le_total fs.length gs.length with hle | hle
  · rcases cases_of_terminated_append hfs hle happend.symm with ⟨heq, -⟩ | ⟨text, htext⟩
    · exact heq.symm
    · exact absurd htext (by simp)
  · rcases cases_of_terminated_append hgs hle happend with ⟨heq, -⟩ | ⟨text, htext⟩
    · exact heq
    · exact absurd htext (by simp)

/-- A separator in a field can be taken for the one between it and a neighbour. -/
theorem exists_shifted {fs : List (List α)} (htwo : 2 ≤ fs.length) (hmem : ∃ f ∈ fs, sep ∈ f) :
    ∃ gs, gs ≠ fs ∧ gs.length = fs.length ∧ terminated sep gs = terminated sep fs := by
  match fs with
  | f :: g :: fs =>
    by_cases hf : sep ∈ f
    · obtain ⟨x, y, rfl⟩ := List.append_of_mem hf
      refine ⟨x :: (y ++ sep :: g) :: fs, ?_, rfl, by simp⟩
      intro heq
      exact absurd (congrArg List.length (List.cons.inj heq).1) (by simp)
    by_cases hg : sep ∈ g
    · obtain ⟨x, y, rfl⟩ := List.append_of_mem hg
      refine ⟨(f ++ sep :: x) :: y :: fs, ?_, rfl, by simp⟩
      intro heq
      exact absurd (congrArg List.length (List.cons.inj heq).1) (by simp)
    -- The field is among the others, and one of them or the second is its neighbour.
    obtain ⟨k, hk, hsep⟩ := hmem
    have hrest : k ∈ fs := by
      simp only [List.mem_cons] at hk
      rcases hk with rfl | rfl | hk
      · exact absurd hsep hf
      · exact absurd hsep hg
      · exact hk
    have htwo' : 2 ≤ (g :: fs).length := Nat.succ_le_succ (List.length_pos_of_mem hrest)
    obtain ⟨gs, hne, hlen, htext⟩ := exists_shifted htwo' ⟨k, List.mem_cons_of_mem _ hrest, hsep⟩
    refine ⟨f :: gs, fun heq => hne (List.cons.inj heq).2, by simp [hlen], ?_⟩
    rw [terminated_cons, htext, terminated_cons f]

/-- Two or more fields are determined by their text and their number exactly when none of them
holds the separator. -/
theorem terminated_determines_iff {fs : List (List α)} (htwo : 2 ≤ fs.length) :
    (∀ gs, gs.length = fs.length → terminated sep gs = terminated sep fs → gs = fs) ↔
      ∀ f ∈ fs, sep ∉ f := by
  constructor
  · intro h f hf hsep
    obtain ⟨gs, hne, hlen, htext⟩ := exists_shifted htwo ⟨f, hf, hsep⟩
    exact hne (h gs hlen htext)
  · intro hfree gs hlen htext
    have happend : terminated sep gs ++ [] = terminated sep fs ++ [] := by rw [htext]
    rcases cases_of_terminated_append hfree hlen.ge happend with ⟨heq, -⟩ | ⟨text, htail⟩
    · exact heq
    · exact absurd htail (by simp)

/-- A last field without separators makes up no pair. -/
theorem not_pair_infix {last : List α} (h : sep ∉ last) : ¬ [sep, sep] <:+: sep :: last := by
  rintro ⟨u, v, huv⟩
  cases u with
  | nil =>
    obtain ⟨-, htail⟩ := List.cons.inj huv
    exact h (htail ▸ List.mem_cons_self)
  | cons c u =>
    obtain ⟨-, htail⟩ := List.cons.inj huv
    exact h (htail ▸ by simp)

/-- With a separator and a last field behind them, the last field must not make up a second pair of
separators in a row. -/
theorem terminated_append_determines_iff {fs : List (List α)} (htwo : 2 ≤ fs.length)
    (last : List α) :
    (∀ gs last', gs.length = fs.length →
      terminated sep gs ++ sep :: last' = terminated sep fs ++ sep :: last →
        gs = fs ∧ last' = last) ↔
      (∀ f ∈ fs, sep ∉ f) ∧ ¬ [sep, sep] <:+: sep :: last := by
  constructor
  · intro h
    refine ⟨(terminated_determines_iff htwo).mp fun gs hlen htext => ?_, ?_⟩
    · exact (h gs last hlen (by rw [htext])).1
    · rintro ⟨u, v, huv⟩
      have hne : fs ≠ [] := List.length_pos_iff.mp (Nat.zero_lt_of_lt htwo)
      obtain ⟨init, f, rfl⟩ := (List.eq_nil_or_concat' fs).resolve_left hne
      -- The pair in the last field is taken for the end of the list.
      have htext : terminated sep (init ++ [f ++ sep :: u]) ++ sep :: v =
          terminated sep (init ++ [f]) ++ sep :: last := by
        rw [← huv]
        simp [terminated_append]
      have heq := (h _ v (by simp) htext).1
      exact absurd (congrArg (fun l => (List.map List.length l).sum) heq) (by simp)
  · rintro ⟨hfree, hpair⟩ gs last' hlen htext
    rcases cases_of_terminated_append hfree hlen.ge htext with ⟨heq, hlast⟩ | ⟨text, htail⟩
    · exact ⟨heq, List.tail_eq_of_cons_eq hlast⟩
    · exact absurd ⟨text, last', by simpa using htail.symm⟩ hpair

end Codec
