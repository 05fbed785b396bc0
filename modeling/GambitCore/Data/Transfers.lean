import Mathlib.Algebra.Order.Ring.Nat
import Mathlib.Data.List.Basic

/-!
# Transfers between accounts

Holdings are a function from accounts to natural numbers, and a transfer moves an amount from one
account to another. As long as each transfer is covered when it is settled, what an account holds in
the end is what it held at first, plus all that came in, minus all that went out.

## Main definitions

* `Transfer`, `Transfer.apply`, `Transfer.settle`
* `Transfer.AllCovered` — each source holds the amount when its transfer is settled
* `Transfer.outgoing`, `Transfer.incoming` — what a list of transfers takes and brings

## Main results

* `Transfer.settle_add_outgoing` — the holdings are accounted for
-/

/-- An amount goes from one account to another, which may be the same. -/
structure Transfer (A : Type*) where
  source : A
  target : A
  amount : ℕ

namespace Transfer

variable {A : Type*} [DecidableEq A]

/-- What a transfer takes from an account. -/
def taken (t : Transfer A) (a : A) : ℕ := if a = t.source then t.amount else 0

/-- What a transfer brings to an account. -/
def given (t : Transfer A) (a : A) : ℕ := if a = t.target then t.amount else 0

/-- The holdings after a transfer. -/
def apply (t : Transfer A) (holdings : A → ℕ) : A → ℕ := fun a =>
  holdings a - t.taken a + t.given a

/-- The holdings after transfers, one after the other. -/
def settle (holdings : A → ℕ) (ts : List (Transfer A)) : A → ℕ :=
  ts.foldl (fun holdings t => t.apply holdings) holdings

/-- Each source holds the amount when its transfer is settled. -/
def AllCovered (holdings : A → ℕ) : List (Transfer A) → Prop
  | [] => True
  | t :: ts => t.amount ≤ holdings t.source ∧ AllCovered (t.apply holdings) ts

/-- What transfers take from an account in all. -/
def outgoing (ts : List (Transfer A)) (a : A) : ℕ := (ts.map fun t => t.taken a).sum

/-- What transfers bring to an account in all. -/
def incoming (ts : List (Transfer A)) (a : A) : ℕ := (ts.map fun t => t.given a).sum

variable {holdings : A → ℕ} {ts us : List (Transfer A)}

theorem settle_append : settle holdings (ts ++ us) = settle (settle holdings ts) us :=
  List.foldl_append

theorem allCovered_append :
    AllCovered holdings (ts ++ us) ↔
      AllCovered holdings ts ∧ AllCovered (settle holdings ts) us := by
  induction ts generalizing holdings with
  | nil => simp [AllCovered, settle]
  | cons t ts ih =>
    rw [List.cons_append, AllCovered, AllCovered, ih, and_assoc]
    rfl

theorem taken_le_of_covered {t : Transfer A} (h : t.amount ≤ holdings t.source) (a : A) :
    t.taken a ≤ holdings a := by
  unfold taken
  split
  · next ha => rwa [ha]
  · exact Nat.zero_le _

/-- What an account holds after covered transfers, and all that went out of it, are what it held
before and all that came in. -/
theorem settle_add_outgoing (h : AllCovered holdings ts) (a : A) :
    settle holdings ts a + outgoing ts a = holdings a + incoming ts a := by
  induction ts generalizing holdings with
  | nil => rfl
  | cons t ts ih =>
    have hrest : settle holdings (t :: ts) a + outgoing ts a =
        holdings a - t.taken a + t.given a + incoming ts a := ih h.2
    have htaken := taken_le_of_covered h.1 a
    have hout : outgoing (t :: ts) a = t.taken a + outgoing ts a := List.sum_cons
    have hin : incoming (t :: ts) a = t.given a + incoming ts a := List.sum_cons
    omega

end Transfer
