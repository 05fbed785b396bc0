import Mathlib.Algebra.BigOperators.Group.List.Basic
import Mathlib.Algebra.Ring.Nat
import Mathlib.Data.List.AList

/-!
# Sums over association lists

The sum of a weight over the entries of an `AList`, and how an insertion changes it.

## Main results

* `AList.sumBy_insert` — an insertion trades the old weight at the key for the new one
* `AList.weightAt_le_sumBy` — one entry weighs at most the sum
-/

namespace AList

variable {α : Type*} {β : α → Type*} (f : Sigma β → ℕ)

/-- The sum of the weights of all entries. -/
def sumBy (m : AList β) : ℕ := (m.entries.map f).sum

variable [DecidableEq α]

/-- The weight at a key, zero where there is no entry. -/
def weightAt (m : AList β) (a : α) : ℕ := ((m.lookup a).map fun b => f ⟨a, b⟩).getD 0

theorem sum_kerase_add (a : α) (l : List (Sigma β)) :
    ((l.kerase a).map f).sum + ((l.dlookup a).map fun b => f ⟨a, b⟩).getD 0 =
      (l.map f).sum := by
  induction l with
  | nil => rfl
  | cons e l ih =>
    obtain ⟨a', b⟩ := e
    by_cases h : a = a'
    · subst h
      simp [Nat.add_comm]
    -- The entry stays in both sums.
    · rw [List.kerase_cons_ne h, List.dlookup_cons_ne _ _ h]
      simp only [List.map_cons, List.sum_cons, ← ih, Nat.add_assoc]

/-- An insertion trades the old weight at the key for the new one. -/
theorem sumBy_insert (m : AList β) (a : α) (b : β a) :
    (m.insert a b).sumBy f + m.weightAt f a = m.sumBy f + f ⟨a, b⟩ := by
  have hsum := sum_kerase_add f a m.entries
  simp only [sumBy, weightAt, AList.lookup, entries_insert, List.map_cons, List.sum_cons]
  omega

/-- One entry weighs at most the sum. -/
theorem weightAt_le_sumBy (m : AList β) (a : α) : m.weightAt f a ≤ m.sumBy f := by
  have hsum := sum_kerase_add f a m.entries
  simp only [sumBy, weightAt, AList.lookup]
  omega

end AList
