import Mathlib.Data.List.Perm.Basic
import GambitCore.State.Root

/-!
# The order of transactions

Whether a transaction goes through depends on what was applied before it. What it does when it goes
through does not: balances are added to and subtracted from modulo `2 ^ 64`, nonces count up, and
the accounts it names exist afterwards. So without the balance check transactions commute, and two
orders of the same transactions that both go through leave the same accounts.

The two runs pass through different ledgers, and an order between them need not go through. The
argument is therefore not by exchanging neighbours among the checked runs. Each run is compared with
the unchecked one, where neighbours can be exchanged freely.

## Main definitions

* `State.applyCalls` — `applyTransaction` for each pair of a sender and a transaction
* `transfer` — what a transaction does to the accounts, without the check

## Main results

* `get_applyCalls` — a run that goes through is the unchecked one
* `applyCalls_perm` — the order does not matter when both orders go through
-/

namespace Gambit

/-- `applyTransaction` for each sender and transaction in turn; the first that throws ends the
loop. -/
def State.applyCalls (s : State) : List (Address × Transaction) → State × Result Unit
  | [] => (s, .ok ())
  | (from_, tx) :: calls =>
    match s.applyTransaction from_ tx with
    | (s', .ok ()) => s'.applyCalls calls
    | (s', .error e) => (s', .error e)

/-! ### Transactions without their check -/

/-- What a transaction adds to the balance of `a`, modulo `2 ^ 64`. -/
def gain (a : Address) (call : Address × Transaction) : UInt64 :=
  (if a = call.2.to_ then call.2.value else 0) - if a = call.1 then call.2.value else 0

/-- What it adds to the nonce of `a`. -/
def sent (a : Address) (call : Address × Transaction) : UInt64 := if a = call.1 then 1 else 0

/-- The account with the two added. -/
def Account.shift (acc : Account) (balance nonce : UInt64) : Account :=
  ⟨acc.balance + balance, acc.nonce + nonce⟩

theorem Account.shift_right_comm (acc : Account) (b n b' n' : UInt64) :
    (acc.shift b n).shift b' n' = (acc.shift b' n').shift b n := by
  simp only [shift, UInt64.add_assoc, UInt64.add_comm b, UInt64.add_comm n]

/-- What a transaction does to the accounts, whether or not its sender can pay. -/
def transfer (accounts : Address → Option Account) (call : Address × Transaction) :
    Address → Option Account := fun a =>
  if a = call.1 ∨ a = call.2.to_ then
    some (((accounts a).getD {}).shift (gain a call) (sent a call))
  else accounts a

/-- Without the check, transactions commute. -/
theorem transfer_right_comm (accounts : Address → Option Account)
    (call call' : Address × Transaction) :
    transfer (transfer accounts call) call' = transfer (transfer accounts call') call := by
  funext a
  unfold transfer
  by_cases h : a = call.1 ∨ a = call.2.to_
  · by_cases h' : a = call'.1 ∨ a = call'.2.to_
    -- Only an account that both name sees both, and addition commutes.
    · simp only [if_pos h, if_pos h', Option.getD_some, Account.shift_right_comm]
    · simp only [if_pos h, if_neg h']
  · simp only [if_neg h]

instance : RightCommutative transfer := ⟨transfer_right_comm⟩

/-! ### Runs that go through -/

section Runs

variable {s : State} {from_ : Address} {tx : Transaction}

/-- The debit and the credit together, in any of the four roles an account can have. -/
theorem account_applyTransaction_eq_shift (a : Address) (h : s.Covers from_ tx) :
    (s.applyTransaction from_ tx).1.account a =
      (s.account a).shift (gain a (from_, tx)) (sent a (from_, tx)) := by
  rw [State.account_applyTransaction_of_covers a h, State.account_debited]
  simp only [Account.shift, gain, sent]
  split
  · split
    · -- In a self-transfer the credit gives back the debit.
      simp [Account.credit, Account.debit]
    · simp [Account.credit]
  · split
    · simp [Account.debit, UInt64.sub_eq_add_neg]
    · simp

/-- A transaction that goes through does what it does without the check. -/
theorem get_applyTransaction_of_covers (h : s.Covers from_ tx) :
    (s.applyTransaction from_ tx).1.get = transfer s.get (from_, tx) := by
  funext a
  have hshift := account_applyTransaction_eq_shift a h
  rw [State.account, State.applyTransaction_of_covers h, State.get_set] at hshift
  rw [State.applyTransaction_of_covers h, State.get_set]
  simp only [transfer]
  by_cases hto : a = tx.to_
  · rw [if_pos hto] at hshift ⊢
    rw [if_pos (Or.inr hto)]
    exact congrArg some hshift
  · rw [if_neg hto, State.debited, State.get_set] at hshift ⊢
    by_cases hfrom : a = from_
    · rw [if_pos hfrom] at hshift ⊢
      rw [if_pos (Or.inl hfrom)]
      exact congrArg some hshift
    -- Any other account is neither created nor written.
    · rw [if_neg hfrom, State.get_getOrCreate, if_neg hto, State.get_getOrCreate, if_neg hfrom,
        if_neg (not_or.mpr ⟨hfrom, hto⟩)]

/-- A run that goes through is the unchecked one. -/
theorem get_applyCalls {s' : State} {calls : List (Address × Transaction)}
    (h : s.applyCalls calls = (s', .ok ())) : s'.get = calls.foldl transfer s.get := by
  induction calls generalizing s with
  | nil =>
    obtain rfl := (Prod.mk.inj h).1
    rfl
  | cons call calls ih =>
    obtain ⟨from_, tx⟩ := call
    rw [State.applyCalls] at h
    by_cases hc : s.Covers from_ tx
    · rw [List.foldl_cons, ← get_applyTransaction_of_covers hc]
      refine ih ?_
      rw [State.applyTransaction_of_covers hc] at h ⊢
      exact h
    · rw [State.applyTransaction_of_not_covers hc] at h
      cases (Prod.mk.inj h).2

theorem get_applyCalls_perm {s₁ s₂ : State} {calls calls' : List (Address × Transaction)}
    (hperm : calls.Perm calls') (h₁ : s.applyCalls calls = (s₁, .ok ()))
    (h₂ : s.applyCalls calls' = (s₂, .ok ())) : s₁.get = s₂.get := by
  rw [get_applyCalls h₁, get_applyCalls h₂, hperm.foldl_eq]

/-- Two orders of the same transactions that both go through leave the same accounts, and so the
same root. -/
theorem applyCalls_perm {s₁ s₂ : State} {calls calls' : List (Address × Transaction)}
    (hperm : calls.Perm calls') (h₁ : s.applyCalls calls = (s₁, .ok ()))
    (h₂ : s.applyCalls calls' = (s₂, .ok ())) : s₁.SameAccounts s₂ ∧ s₁.root = s₂.root := by
  have hget := get_applyCalls_perm hperm h₁ h₂
  exact ⟨State.sameAccounts_iff.mpr hget,
    rootIn_congr hget (List.Perm.refl _) (List.Perm.refl _)⟩

end Runs

/-- A payment and a transfer of the payer to itself, in both orders. -/
theorem applyCalls_perm_swap :
    let payer : Address := ⟨List.replicate 20 1, rfl⟩
    let pay : Address × Transaction := (payer, { to_ := ⟨List.replicate 20 2, rfl⟩, value := 2 })
    let turn : Address × Transaction := (payer, { to_ := payer, value := 3 })
    let s := State.empty.set payer { balance := 5 }
    (s.applyCalls [pay, turn]).2 = .ok () ∧ (s.applyCalls [turn, pay]).2 = .ok () ∧
      (s.applyCalls [pay, turn]).1.root = (s.applyCalls [turn, pay]).1.root := by
  intro payer pay turn s
  have hfirst : (s.applyCalls [pay, turn]).2 = .ok () := by decide
  have hsecond : (s.applyCalls [turn, pay]).2 = .ok () := by decide
  refine ⟨hfirst, hsecond, ?_⟩
  clear_value s pay turn
  exact (applyCalls_perm (List.Perm.swap _ _ _) (Prod.ext rfl hfirst) (Prod.ext rfl hsecond)).2

end Gambit
