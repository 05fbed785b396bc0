import GambitCore.Blockchain.Admission
import Mathlib.Algebra.Order.BigOperators.Group.List

/-!
# Receipts

What the receipts of a mined block say. `mineBlock` puts receipt `i` into a fresh trie under the
low byte of `i`, so from the 257th receipt on it overwrites an earlier one, and the root of the
trie says nothing about that one any more. The gas used so far is a 64-bit sum without a check;
a transaction at price zero passes validation with any gas limit, so two of them can make the sum
wrap.

## Main definitions

* `receiptKey` — the key of a receipt
* `Block.CommitsReceipts` — every receipt is found in the trie under a key of its own
* `Block.GasExact` — the receipts carry the exact gas used so far

## Main results

* `commitsReceipts_iff` — the receipts root commits to every receipt of up to 256
* `gasExact_iff` — the gas used is exact while the whole of it fits in 64 bits
-/

namespace Gambit

/-! ### Keys -/

/-- The key under which receipt `i` is put. -/
def receiptKey (i : ℕ) : Bytes := [UInt8.ofNat i]

theorem receiptKey_eq_iff {i j : ℕ} : receiptKey i = receiptKey j ↔ i % 256 = j % 256 := by
  simp [receiptKey, ← UInt8.toNat_inj]

/-- What the loop over the receipts leaves in the trie, while it does not come round to a key it
has used: each receipt under its own key, and everything else as it was. -/
theorem get_of_putReceipts {trie trie' : MptTrie} {i : ℕ} {rs : List Receipt}
    (h : putReceipts trie i rs = .ok trie') (hlen : i + rs.length ≤ 256) :
    (∀ j, j < i → trie'.get (receiptKey j) = trie.get (receiptKey j)) ∧
      ∀ j (hj : j < rs.length), ∃ enc, rs[j].rlpEncode = .ok enc ∧
        trie'.get (receiptKey (i + j)) = some enc := by
  induction rs generalizing trie i with
  | nil =>
    obtain rfl := Except.ok.inj h
    exact ⟨fun _ _ => rfl, fun j hj => absurd hj (Nat.not_lt_zero j)⟩
  | cons r rs ih =>
    rw [List.length_cons] at hlen
    obtain ⟨enc, henc, hrest⟩ := bind_eq_ok.mp h
    obtain ⟨hbefore, hafter⟩ := ih hrest (by omega)
    refine ⟨fun j hj => ?_, fun j hj => ?_⟩
    · have hne : receiptKey j ≠ [UInt8.ofNat i] := by
        rw [← receiptKey, Ne, receiptKey_eq_iff]
        omega
      rw [hbefore j (by omega), MptTrie.get_put, if_neg hne]
    · cases j with
      | zero =>
        refine ⟨enc, henc, ?_⟩
        rw [Nat.add_zero, hbefore i (Nat.lt_succ_self i), MptTrie.get_put]
        exact if_pos rfl
      | succ j =>
        obtain ⟨enc', henc', hget⟩ := hafter j (Nat.lt_of_succ_lt_succ hj)
        rw [Nat.add_right_comm] at hget
        exact ⟨enc', henc', hget⟩

/-- The keys of the first `n` receipts differ exactly while `n` is at most 256. -/
theorem receiptKey_distinct_iff {n : ℕ} :
    (∀ i j, i < n → j < n → receiptKey i = receiptKey j → i = j) ↔ n ≤ 256 := by
  simp only [receiptKey_eq_iff]
  constructor
  · intro h
    by_contra hn
    -- The 257th receipt comes back to the key of the first.
    exact absurd (h 0 256 (by omega) (by omega) rfl) (by decide)
  · intro hn i j hi hj hkey
    omega

namespace Block

/-- The trie whose root is the receipts root holds the encoding of every receipt under the key of
its index, and no two indices share a key. -/
def CommitsReceipts (b : Block) : Prop :=
  ∃ trie, putReceipts MptTrie.new 0 b.receipts = .ok trie ∧ b.receiptsRoot = trie.rootHash ∧
    (∀ i (hi : i < b.receipts.length), ∃ enc, b.receipts[i].rlpEncode = .ok enc ∧
      trie.get (receiptKey i) = some enc) ∧
    ∀ i j, i < b.receipts.length → j < b.receipts.length → receiptKey i = receiptKey j → i = j

end Block

/-! ### The receipts of a mined block -/

theorem length_receiptsFrom (gas : UInt64) (txs : List Transaction) :
    (receiptsFrom gas txs).length = txs.length := by
  induction txs generalizing gas with
  | nil => rfl
  | cons tx txs ih => rw [receiptsFrom, List.length_cons, ih, List.length_cons]

theorem receipts_of_mined {bc bc' : Blockchain} {now : UInt64} {block : Block}
    (h : bc.mineBlock now = (bc', .ok block)) :
    block.transactions = bc.mempool ∧ block.receipts = receiptsFrom 0 bc.mempool ∧
      ∃ trie, putReceipts MptTrie.new 0 block.receipts = .ok trie ∧
        block.receiptsRoot = trie.rootHash := by
  obtain ⟨s', before, -, hseal⟩ := Blockchain.exists_sealBlock_of_mined h
  obtain ⟨after, -, hseal⟩ := bind_eq_ok.mp hseal
  obtain ⟨trie, htrie, hseal⟩ := bind_eq_ok.mp hseal
  obtain rfl := Except.ok.inj hseal
  exact ⟨rfl, rfl, trie, htrie, rfl⟩

theorem length_receipts_of_mined {bc bc' : Blockchain} {now : UInt64} {block : Block}
    (h : bc.mineBlock now = (bc', .ok block)) : block.receipts.length = bc.mempool.length := by
  rw [(receipts_of_mined h).2.1, length_receiptsFrom]

/-- Transfers of nothing always go through. -/
theorem payable_of_value_zero {s : State} {txs : List Transaction}
    (h : ∀ tx ∈ txs, tx.value = 0) : Payable s txs := by
  induction txs generalizing s with
  | nil => trivial
  | cons tx txs ih =>
    obtain ⟨hfirst, hrest⟩ := List.forall_mem_cons.mp h
    refine ⟨?_, ih hrest⟩
    rw [State.Covers, hfirst]
    exact UInt64.zero_le

/-- Transactions that arrive in a row are all pending. -/
theorem run_addTransaction (bc : Blockchain) (txs : List Transaction) :
    (chainMachine.run bc (txs.map Op.addTransaction)).1 =
      { bc with mempool := bc.mempool ++ txs } := by
  induction txs generalizing bc with
  | nil => simp
  | cons tx txs ih =>
    rw [List.map_cons, Machine.run_cons]
    refine (ih (bc.addTransaction tx)).trans ?_
    simp [Blockchain.addTransaction]

/-- `mineBlock` makes a block of transfers of nothing that arrive on a fresh chain. -/
theorem exists_mined_of_value_zero {txs : List Transaction} (h : ∀ tx ∈ txs, tx.value = 0) :
    ∃ bc, Blockchain.new 0 {} = .ok bc ∧
      ∃ bc' block, (chainMachine.run bc (txs.map Op.addTransaction)).1.mineBlock 0 =
        (bc', .ok block) ∧ block.transactions = txs ∧ block.receipts = receiptsFrom 0 txs := by
  obtain ⟨bc, hbc⟩ := Blockchain.exists_new 0 {}
  obtain ⟨root, -, rfl⟩ := Blockchain.new_eq_ok hbc
  refine ⟨_, hbc, ?_⟩
  rw [run_addTransaction, List.nil_append]
  obtain ⟨s', block, -, -, hmine⟩ :=
    Blockchain.exists_mined ⟨_, _, txs, _, _⟩ 0 (payable_of_value_zero h)
  obtain ⟨htxs, hreceipts, -⟩ := receipts_of_mined hmine
  exact ⟨_, block, hmine, htxs, hreceipts⟩

/-- The receipts root of a mined block commits to every receipt exactly when at most 256
transactions were pending: the key of a receipt is the low byte of its index. -/
theorem commitsReceipts_iff {bc bc' : Blockchain} {now : UInt64} {block : Block}
    (h : bc.mineBlock now = (bc', .ok block)) :
    block.CommitsReceipts ↔ bc.mempool.length ≤ 256 := by
  have hlen := length_receipts_of_mined h
  obtain ⟨-, -, trie, htrie, hroot⟩ := receipts_of_mined h
  rw [← hlen, ← receiptKey_distinct_iff]
  constructor
  · rintro ⟨-, -, -, -, hkeys⟩
    exact hkeys
  · intro hkeys
    have hstored := (get_of_putReceipts htrie (by
      rw [Nat.zero_add]
      exact receiptKey_distinct_iff.mp hkeys)).2
    refine ⟨trie, htrie, hroot, fun i hi => ?_, hkeys⟩
    have hi' := hstored i hi
    rwa [Nat.zero_add] at hi'

/-- A block with three receipts. -/
theorem commitsReceipts_payments :
    ∃ bc, Blockchain.new 0 Blockchain.fiveUnits = .ok bc ∧
      ∃ bc' block, (Blockchain.payments.foldl Blockchain.addTransaction bc).mineBlock 60 =
        (bc', .ok block) ∧ block.CommitsReceipts := by
  obtain ⟨bc, hbc⟩ := Blockchain.exists_new 0 Blockchain.fiveUnits
  obtain ⟨hmem, hpay⟩ := Blockchain.payable_payments hbc
  obtain ⟨_, block, -, -, hmine⟩ := Blockchain.exists_mined _ 60 hpay
  exact ⟨bc, hbc, _, block, hmine, (commitsReceipts_iff hmine).mpr (by rw [hmem]; decide)⟩

/-- With 257 receipts the last one is put in the place of the first. -/
theorem receipts_not_committed :
    ∃ bc, Blockchain.new 0 {} = .ok bc ∧
      ∃ bc' block, (chainMachine.run bc
          ((List.replicate 257 { gasLimit := 1 }).map Op.addTransaction)).1.mineBlock 0 =
        (bc', .ok block) ∧ block.receipts.length = 257 ∧ ¬ block.CommitsReceipts := by
  have hvalue : ∀ tx ∈ List.replicate 257 ({ gasLimit := 1 } : Transaction), tx.value = 0 := by
    intro tx htx
    rw [List.eq_of_mem_replicate htx]
  obtain ⟨bc, hbc, bc', block, hmine, -, hreceipts⟩ := exists_mined_of_value_zero hvalue
  have hlen : block.receipts.length = 257 := by
    rw [hreceipts, length_receiptsFrom, List.length_replicate]
  refine ⟨bc, hbc, bc', block, hmine, hlen, ?_⟩
  rintro ⟨-, -, -, -, hkeys⟩
  rw [receiptKey_distinct_iff, hlen] at hkeys
  exact absurd hkeys (by decide)

/-! ### Cumulative gas -/

/-- The gas limits of some transactions, summed up as natural numbers. -/
def gasSum (txs : List Transaction) : ℕ := (txs.map fun tx => tx.gasLimit.toNat).sum

/-- Receipt `i` carries the sum of the gas limits of the transactions up to `i`, and no receipt
carries less than one before it. -/
def Block.GasExact (b : Block) : Prop :=
  (∀ i (hi : i < b.receipts.length),
    b.receipts[i].cumulativeGasUsed.toNat = gasSum (b.transactions.take (i + 1))) ∧
  ∀ i j (hij : i ≤ j) (hj : j < b.receipts.length),
    b.receipts[i].cumulativeGasUsed ≤ b.receipts[j].cumulativeGasUsed

@[simp] theorem gasSum_cons (tx : Transaction) (txs : List Transaction) :
    gasSum (tx :: txs) = tx.gasLimit.toNat + gasSum txs := by
  simp [gasSum]

theorem gasSum_take_mono (txs : List Transaction) {i j : ℕ} (hij : i ≤ j) :
    gasSum (txs.take i) ≤ gasSum (txs.take j) :=
  ((List.take_sublist_take_left hij).map _).sum_le_sum fun _ _ => Nat.zero_le _

/-- The running sum of the loop, modulo `2 ^ 64`. -/
theorem toNat_cumulativeGasUsed (gas : UInt64) (txs : List Transaction) {i : ℕ}
    (hi : i < (receiptsFrom gas txs).length) :
    (receiptsFrom gas txs)[i].cumulativeGasUsed.toNat =
      (gas.toNat + gasSum (txs.take (i + 1))) % 2 ^ 64 := by
  induction txs generalizing gas i with
  | nil => exact absurd hi (Nat.not_lt_zero i)
  | cons tx txs ih =>
    cases i with
    | zero => simp [receiptsFrom, gasSum]
    | succ i =>
      have hrest := ih (gas + tx.gasLimit) (Nat.lt_of_succ_lt_succ hi)
      rw [UInt64.toNat_add, Nat.mod_add_mod, Nat.add_assoc, ← gasSum_cons] at hrest
      exact hrest

/-- The receipts of a list of transactions are exact when all of their gas fits in 64 bits: the
last receipt carries the whole sum. -/
theorem gasExact_of_receipts_iff {b : Block} (h : b.receipts = receiptsFrom 0 b.transactions) :
    b.GasExact ↔ gasSum b.transactions < 2 ^ 64 := by
  have hlen : b.receipts.length = b.transactions.length := by rw [h, length_receiptsFrom]
  have hgas (i : ℕ) (hi : i < b.receipts.length) : b.receipts[i].cumulativeGasUsed.toNat =
      gasSum (b.transactions.take (i + 1)) % 2 ^ 64 := by
    simp only [h] at hi ⊢
    rw [toNat_cumulativeGasUsed, UInt64.toNat_zero, Nat.zero_add]
  constructor
  · rintro ⟨hexact, -⟩
    cases htxs : b.transactions with
    | nil => exact Nat.two_pow_pos 64
    | cons tx txs =>
      have hlast : txs.length < b.receipts.length := by
        rw [hlen, htxs]
        exact Nat.lt_succ_self _
      have hsum := hexact txs.length hlast
      rw [htxs, List.take_of_length_le (by simp)] at hsum
      rw [← hsum]
      exact UInt64.toNat_lt _
  · intro hfits
    have hexact (i : ℕ) (hi : i < b.receipts.length) : b.receipts[i].cumulativeGasUsed.toNat =
        gasSum (b.transactions.take (i + 1)) := by
      have hle := gasSum_take_mono b.transactions (i := i + 1) (j := b.transactions.length)
        (by omega)
      rw [List.take_length] at hle
      rw [hgas i hi, Nat.mod_eq_of_lt (hle.trans_lt hfits)]
    refine ⟨hexact, fun i j hij hj => ?_⟩
    rw [UInt64.le_iff_toNat_le, hexact, hexact]
    exact gasSum_take_mono _ (Nat.succ_le_succ hij)

/-- In a mined block the gas used so far is exact, and never decreases, exactly when the gas limits
of all pending transactions together stay below `2 ^ 64`. -/
theorem gasExact_iff {bc bc' : Blockchain} {now : UInt64} {block : Block}
    (h : bc.mineBlock now = (bc', .ok block)) :
    block.GasExact ↔ gasSum bc.mempool < 2 ^ 64 := by
  obtain ⟨htxs, hreceipts, -⟩ := receipts_of_mined h
  rw [← htxs] at hreceipts ⊢
  exact gasExact_of_receipts_iff hreceipts

/-- The gas limits of the three payments add up to 72000. -/
theorem gasExact_payments :
    ∃ bc, Blockchain.new 0 Blockchain.fiveUnits = .ok bc ∧
      ∃ bc' block, (Blockchain.payments.foldl Blockchain.addTransaction bc).mineBlock 60 =
        (bc', .ok block) ∧ block.GasExact := by
  obtain ⟨bc, hbc⟩ := Blockchain.exists_new 0 Blockchain.fiveUnits
  obtain ⟨hmem, hpay⟩ := Blockchain.payable_payments hbc
  obtain ⟨_, block, -, -, hmine⟩ := Blockchain.exists_mined _ 60 hpay
  exact ⟨bc, hbc, _, block, hmine, (gasExact_iff hmine).mpr (by rw [hmem]; decide)⟩

open Transaction

/-- The signature of `devTx 1` with half the range of a word as its gas limit. -/
def sigHalf : RecoverableSignature where
  compact :=
    ⟨[19, 185, 104, 24, 54, 229, 241, 232, 119, 215, 106, 138, 9, 70, 226, 253, 245, 166, 252, 130,
      55, 134, 146, 148, 104, 10, 148, 224, 196, 142, 4, 74, 120, 59, 44, 175, 157, 217, 219, 87,
      114, 185, 251, 127, 149, 193, 244, 48, 238, 204, 151, 232, 71, 214, 88, 138, 152, 126, 201,
      208, 8, 78, 166, 217], rfl⟩
  recid := ⟨0, Nat.zero_lt_succ 3⟩

/-- What `sigHalf` recovers to under recovery id 1. -/
def otherKeyHalf : FixedBytes 64 :=
  ⟨[217, 47, 153, 20, 143, 63, 247, 155, 243, 152, 84, 237, 187, 81, 54, 129, 211, 243, 28, 40, 32,
    216, 89, 77, 252, 225, 58, 33, 45, 165, 181, 155, 111, 73, 196, 157, 247, 38, 15, 0, 143, 158,
    56, 38, 100, 3, 121, 11, 253, 120, 76, 27, 176, 37, 132, 229, 56, 98, 223, 241, 254, 194, 243,
    111], rfl⟩

/-- A transfer of nothing at price zero, with half the range of a word as its gas limit. -/
def devHalf : Transaction :=
  { devTx 1 with
    gasLimit := 0x8000000000000000
    from_ := devAddress
    sig := ⟨sigHalf.compact.val.take 32, sigHalf.compact.val.drop 32, 0⟩ }

theorem verify_devHalf : devHalf.verifySignature (devSecp sigHalf otherKeyHalf) = true := by
  have hsign : (devSecp sigHalf otherKeyHalf).signRecoverable devHalf.signingHash devPriv =
      some sigHalf := by simp [devSecp]
  have hid : recoveryId 0 1 = .ok 0 := by decide
  have hrec : recoverAddress (devSecp sigHalf otherKeyHalf) devHalf.signingHash devHalf.sig 1 =
      .ok devAddress :=
    recoverAddress_sign devSecp_sound (devKeyPair sigHalf otherKeyHalf) hsign hid rfl rfl
  exact @verifySignature_of_recoverAddress _ devHalf _ hrec

/-- An account that does not exist can send it: at price zero it costs nothing. -/
theorem validate_devHalf {bc : Blockchain} (hid : bc.chainId = 1)
    (hnone : bc.state.get devAddress = none) :
    bc.validateTransaction (devSecp sigHalf otherKeyHalf) devHalf = .ok () := by
  have haccount : bc.state.account devHalf.from_ = {} := by
    show bc.state.account devAddress = {}
    rw [State.account, hnone]
    rfl
  refine Blockchain.validateTransaction_eq_ok_iff.mpr ⟨hid.symm, verify_devHalf, ?_, ?_, ?_, ?_⟩
  · rw [haccount]
    rfl
  · exact fun hgas => hgas.1 rfl
  · exact UInt64.zero_le
  · exact UInt64.zero_le

/-- Two of them, both validated and pending on a fresh chain, make the sum of the second receipt
zero. -/
theorem gas_not_exact_devHalf :
    ∃ bc, Blockchain.new 0 {} = .ok bc ∧
      let pending := (chainMachine.run bc ([devHalf, devHalf].map Op.addTransaction)).1
      (∀ tx ∈ pending.mempool,
        pending.validateTransaction (devSecp sigHalf otherKeyHalf) tx = .ok ()) ∧
      ∃ bc' block, pending.mineBlock 0 = (bc', .ok block) ∧ ¬ block.GasExact := by
  have hzero : ∀ tx ∈ [devHalf, devHalf], tx.value = 0 := by simp [devHalf, devTx]
  obtain ⟨bc, hbc, bc', block, hmine, htxs, hreceipts⟩ := exists_mined_of_value_zero hzero
  refine ⟨bc, hbc, ?_, bc', block, hmine, ?_⟩
  · rw [run_addTransaction]
    obtain ⟨root, -, rfl⟩ := Blockchain.new_eq_ok hbc
    intro tx htx
    obtain rfl : tx = devHalf := by simpa using htx
    exact validate_devHalf rfl rfl
  · rw [gasExact_of_receipts_iff (by rw [htxs, hreceipts]), htxs]
    simp [gasSum, devHalf]

end Gambit
