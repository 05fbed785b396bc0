import GambitCore.Blockchain.Runs
import GambitCore.Data.Transfers

/-!
# The ledger as an account book

What a transaction does to the 64-bit balances is a transfer of natural numbers, as long as the
balances sum to less than `2 ^ 64`. The loop over a mempool settles the transfers of those calls
that go through.

## Main definitions

* `State.holdings` — the balances as natural numbers
* `Transaction.transfer` — what a transaction moves

## Main results

* `State.holdings_applyTransaction` — a transaction that goes through is its transfer
* `holdings_applyAll` — the loop over the mempool settles the transfers of its log
-/

namespace Gambit

/-- The balances, as natural numbers. -/
def State.holdings (s : State) (a : Address) : ℕ := (s.account a).balance.toNat

/-- What a transaction moves. -/
def Transaction.transfer (tx : Transaction) : Transfer Address :=
  ⟨tx.from_, tx.to_, tx.value.toNat⟩

theorem Transaction.taken_transfer (tx : Transaction) (a : Address) :
    tx.transfer.taken a = if a = tx.from_ then tx.value.toNat else 0 := rfl

theorem Transaction.given_transfer (tx : Transaction) (a : Address) :
    tx.transfer.given a = if a = tx.to_ then tx.value.toNat else 0 := rfl

/-- Between the two balance updates the amount is gone from the sender. -/
theorem State.toNat_balance_debited {s : State} {tx : Transaction} (h : s.Covers tx.from_ tx)
    (a : Address) :
    ((s.debited tx.from_ tx).account a).balance.toNat = s.holdings a - tx.transfer.taken a := by
  rw [account_debited, Transaction.taken_transfer]
  split
  · next ha =>
    rw [ha, toNat_debit tx.from_ tx h]
    rfl
  · rfl

/-- A transaction that goes through is its transfer: nothing wraps. -/
theorem State.holdings_applyTransaction {s : State} {tx : Transaction} (htotal : s.total < 2 ^ 64)
    (h : s.Covers tx.from_ tx) :
    (s.applyTransaction tx.from_ tx).1.holdings = tx.transfer.apply s.holdings := by
  obtain ⟨-, hcredit⟩ := noWrap_of_total_lt tx.from_ tx htotal h
  funext a
  rw [holdings, account_applyTransaction_of_covers a h, Transfer.apply, Transaction.given_transfer]
  split
  · next ha => rw [ha, hcredit, toNat_balance_debited h]
  · exact toNat_balance_debited h a

/-- The loop over the mempool settles the transfers of the calls that go through, and each of them
is covered. -/
theorem holdings_applyAll {s : State} (htotal : s.total < 2 ^ 64) (txs : List Transaction) :
    (applyAll s txs).1.holdings =
        Transfer.settle s.holdings ((applyLog s txs).map fun call => call.2.transfer) ∧
      Transfer.AllCovered s.holdings ((applyLog s txs).map fun call => call.2.transfer) := by
  induction txs generalizing s with
  | nil => exact ⟨rfl, trivial⟩
  | cons tx txs ih =>
    by_cases hc : s.Covers tx.from_ tx
    · have hstep := State.total_applyTransaction tx.from_ tx htotal
      obtain ⟨hrest, hcovered⟩ := ih (hstep.trans_lt htotal)
      rw [State.holdings_applyTransaction htotal hc] at hrest hcovered
      rw [applyAll_cons_of_covers hc, applyLog_cons_of_covers hc]
      exact ⟨hrest, UInt64.le_iff_toNat_le.mp hc, hcovered⟩
    · rw [applyAll_cons_of_not_covers hc, applyLog_cons_of_not_covers hc]
      refine ⟨?_, trivial⟩
      funext a
      rw [State.holdings, State.account_applyTransaction_of_not_covers a hc]
      rfl

/-- What the loop applies was in the mempool. -/
theorem mem_of_mem_applyLog {s : State} {txs : List Transaction} {call : State × Transaction}
    (h : call ∈ applyLog s txs) : call.2 ∈ txs := by
  induction txs generalizing s with
  | nil => cases h
  | cons tx txs ih =>
    by_cases hc : s.Covers tx.from_ tx
    · rw [applyLog_cons_of_covers hc] at h
      rcases List.mem_cons.mp h with rfl | hrest
      · exact List.mem_cons_self
      · exact List.mem_cons_of_mem _ (ih hrest)
    · rw [applyLog_cons_of_not_covers hc] at h
      cases h

end Gambit
