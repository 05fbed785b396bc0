import GambitCore.Blockchain.Runs
import GambitCore.State.Commute

/-!
# The order of transactions in blocks

On the local path transactions come in through `addTransaction` and go into blocks through
`mineBlock`. A call that throws leaves the mempool as it was, and one that returns moves all of it
into its block. So the blocks and the mempool, read one after the other, are the transactions in the
order they came in.

The order inside a block matters for whether `mineBlock` returns, and for the transaction root. The
state root of the block does not depend on it.

## Main definitions

* `LocalCall` — a call of the local path
* `Blockchain.inOrder` — the transactions in blocks, followed by the pending ones

## Main results

* `mined_append_pending` — no transaction is lost, duplicated or reordered
* `stateAfter_perm` — two orders of a mempool that can both be mined give the same state root
-/

namespace Gambit

/-- A call of the local mining path. -/
inductive LocalCall
  | addTransaction (tx : Transaction)
  | mineBlock (now : UInt64)

/-- The call into the chain. -/
def LocalCall.op : LocalCall → Op
  | .addTransaction tx => .addTransaction tx
  | .mineBlock now => .mineBlock now

/-- The transaction a call passes to `addTransaction`. -/
def LocalCall.added : LocalCall → Option Transaction
  | .addTransaction tx => some tx
  | .mineBlock _ => none

namespace Blockchain

/-- The transactions of the blocks behind the genesis block, followed by the pending ones. -/
def inOrder (bc : Blockchain) : List Transaction :=
  bc.chain.tail.flatMap Block.transactions ++ bc.mempool

/-- A call appends what it adds. -/
theorem inOrder_next (bc : Blockchain) (call : LocalCall) :
    (call.op.next bc).inOrder = bc.inOrder ++ call.added.toList := by
  cases call with
  | addTransaction tx => exact (List.append_assoc _ _ _).symm
  | mineBlock now =>
    show (bc.mineBlock now).1.inOrder = bc.inOrder ++ []
    rw [List.append_nil]
    rcases bc.mineBlock_cases now with ⟨s', block, -, hsealed, hmine⟩ | ⟨s', e, -, hmine⟩
    · -- The mempool moves to the end of the blocks.
      obtain ⟨before, after, receiptsRoot, -, -, rfl⟩ := hsealed
      rw [hmine]
      simp only [inOrder, List.tail_append_of_ne_nil bc.chain_ne_nil, List.flatMap_append,
        List.flatMap_singleton, List.append_nil]
      rfl
    · rw [hmine]
      rfl

/-- So does a run. -/
theorem inOrder_run (bc : Blockchain) (calls : List LocalCall) :
    (chainMachine.run bc (calls.map LocalCall.op)).1.inOrder =
      bc.inOrder ++ calls.filterMap LocalCall.added := by
  induction calls generalizing bc with
  | nil => simp
  | cons call calls ih =>
    rw [List.map_cons, Machine.run_cons]
    show (chainMachine.run (call.op.next bc) (calls.map LocalCall.op)).1.inOrder = _
    rw [ih, inOrder_next, List.append_assoc]
    cases call <;> rfl

end Blockchain

/-- Along every run of `addTransaction` and `mineBlock` calls, the transactions of the blocks behind
the genesis block followed by the pending ones are those added, in the order they were added. -/
theorem mined_append_pending {now : UInt64} {genesis : GenesisConfig} {bc : Blockchain}
    (hnew : Blockchain.new now genesis = .ok bc) (calls : List LocalCall) :
    let bc' := (chainMachine.run bc (calls.map LocalCall.op)).1
    bc'.chain.tail.flatMap Block.transactions ++ bc'.mempool =
      calls.filterMap LocalCall.added := by
  -- The genesis block holds no transaction, and nothing is pending yet.
  have hempty : bc.inOrder = [] := by
    obtain ⟨root, -, rfl⟩ := Blockchain.new_eq_ok hnew
    rfl
  have hrun := bc.inOrder_run calls
  rwa [hempty, List.nil_append] at hrun

/-- A payment is mined; the same payment again cannot be, and stays pending. -/
theorem mined_append_pending_payment_twice :
    ∃ bc, Blockchain.new 0 Blockchain.fiveUnits = .ok bc ∧
      let bc' := (chainMachine.run bc ([.addTransaction Blockchain.payment, .mineBlock 0,
        .addTransaction Blockchain.payment, .mineBlock 1].map LocalCall.op)).1
      bc'.chain.tail.flatMap Block.transactions ++ bc'.mempool =
        [Blockchain.payment, Blockchain.payment] := by
  obtain ⟨bc, hbc⟩ := Blockchain.exists_new 0 Blockchain.fiveUnits
  exact ⟨bc, hbc, mined_append_pending hbc _⟩

/-! ### The order inside a block -/

/-- The loop of `mineBlock` takes the sender of each transaction from the transaction. -/
theorem applyAll_eq_applyCalls (s : State) (txs : List Transaction) :
    applyAll s txs = s.applyCalls (txs.map fun tx => (tx.from_, tx)) := by
  induction txs generalizing s with
  | nil => rfl
  | cons tx txs ih =>
    rw [applyAll, List.map_cons, State.applyCalls]
    rcases s.applyTransaction tx.from_ tx with ⟨s', e | ⟨⟩⟩
    · rfl
    · exact ih s'

/-- Two nodes with the same ledger and the same pending transactions, in whatever order, mine blocks
with the same state roots if both can mine. -/
theorem stateAfter_perm {bc bc' : Blockchain} {now now' : UInt64} {block block' : Block}
    (hstate : bc.state = bc'.state) (hperm : bc.mempool.Perm bc'.mempool)
    (h : (bc.mineBlock now).2 = .ok block) (h' : (bc'.mineBlock now').2 = .ok block') :
    block.stateBefore = block'.stateBefore ∧ block.stateAfter = block'.stateAfter := by
  rcases bc.mineBlock_cases now with ⟨s₁, b, happlies, hsealed, hmine⟩ | ⟨s₁, e, -, hmine⟩
  · rcases bc'.mineBlock_cases now' with ⟨s₂, b', happlies', hsealed', hmine'⟩ | ⟨s₂, e, -, hmine'⟩
    · rw [hmine] at h
      rw [hmine'] at h'
      obtain rfl := Except.ok.inj h
      obtain rfl := Except.ok.inj h'
      obtain ⟨before, after, _, hbefore, hafter, rfl⟩ := hsealed
      obtain ⟨before', after', _, hbefore', hafter', rfl⟩ := hsealed'
      have hloop := applyAll_eq_ok_iff.mpr happlies
      have hloop' := applyAll_eq_ok_iff.mpr happlies'
      rw [applyAll_eq_applyCalls] at hloop hloop'
      rw [← hstate] at hbefore' hloop'
      have hget := get_applyCalls_perm (hperm.map _) hloop hloop'
      have hroot : s₁.root = s₂.root := rootIn_congr hget (List.Perm.refl _) (List.Perm.refl _)
      rw [hafter, hafter'] at hroot
      exact ⟨Except.ok.inj (hbefore.symm.trans hbefore'), Except.ok.inj hroot⟩
    · rw [hmine'] at h'
      cases h'
  · rw [hmine] at h
    cases h

end Gambit
