import GambitCore.Blockchain.Integrity

/-!
# Transactions in more than one block

`mineBlock` empties the mempool it has put into a block. A round of the miner does not: its block
comes back through `addBlock`, which leaves the mempool alone, and so does a block from a peer. What
such a block holds is still pending, and the next block holds it again.

A transaction is in one block at most as long as none is both pending and in a block: the miner
finds nothing it can include, and no transaction arrives that a block has, or a block with what is
pending.

## Main definitions

* `Exclusive` — the step leaves no transaction both pending and in a block

## Main results

* `included_at_most_once` — along such steps no two blocks share a transaction
* `minerRound_twice` — two rounds over pending transactions put them in two blocks
-/

namespace Gambit

/-- No block of the chain holds `tx`. -/
def Blockchain.Unmined (bc : Blockchain) (tx : Transaction) : Prop :=
  ∀ b ∈ bc.chain, tx ∉ b.transactions

/-- The step leaves no transaction both pending and in a block. A transaction is added only if no
block has it. A block from outside is refused, or has nothing that is pending or in a block. The
miner makes no block, or an empty one. -/
def Exclusive (bc : Blockchain) : Op → Prop
  | .addTransaction tx => bc.Unmined tx
  | .mineBlock _ => True
  | .addBlock block => bc.Accepts block → ∀ tx ∈ block.transactions, tx ∉ bc.mempool ∧ bc.Unmined tx
  | .minerRound _ => bc.mempool = [] ∨ ¬ Payable bc.state bc.mempool

/-- Pending transactions are in no block, and no two blocks share one. -/
structure Separate (bc : Blockchain) : Prop where
  pending : ∀ tx ∈ bc.mempool, bc.Unmined tx
  blocks : bc.chain.Pairwise fun b b' => b.transactions.Disjoint b'.transactions

namespace Separate

variable {bc bc' : Blockchain} {block : Block}

/-- A block of unmined transactions keeps the blocks apart, and what is pending as long as the
block does not hold it. -/
theorem append (h : Separate bc) (hchain : bc'.chain = bc.chain ++ [block])
    (hblock : ∀ tx ∈ block.transactions, bc.Unmined tx)
    (hmem : ∀ tx ∈ bc'.mempool, tx ∈ bc.mempool ∧ tx ∉ block.transactions) : Separate bc' := by
  constructor
  · intro tx htx b hb
    obtain ⟨hold, hnew⟩ := hmem tx htx
    rw [hchain, List.mem_append, List.mem_singleton] at hb
    rcases hb with hb | rfl
    · exact h.pending tx hold b hb
    · exact hnew
  · rw [hchain, List.pairwise_append]
    refine ⟨h.blocks, List.pairwise_singleton _ _, fun b hb b' hb' tx htx htx' => ?_⟩
    obtain rfl := List.mem_singleton.mp hb'
    exact hblock tx htx' b hb htx

theorem next (h : Separate bc) {op : Op} (hop : Exclusive bc op) : Separate (op.next bc) := by
  cases op with
  | addTransaction tx =>
    refine ⟨fun tx' htx' => ?_, h.blocks⟩
    rcases List.mem_append.mp htx' with hold | hnew
    · exact h.pending tx' hold
    · obtain rfl := List.mem_singleton.mp hnew
      exact hop
  | mineBlock now =>
    rcases bc.mineBlock_cases now with ⟨s', block, -, hsealed, hmine⟩ | ⟨s', e, -, hmine⟩
    · -- The block is the mempool, which is empty afterwards.
      obtain ⟨_, _, _, -, -, rfl⟩ := hsealed
      rw [Op.next, hmine]
      exact h.append rfl h.pending (by simp)
    · rw [Op.next, hmine]
      exact ⟨h.pending, h.blocks⟩
  | addBlock block =>
    rw [Op.next]
    by_cases haccepts : bc.Accepts block
    · have hfresh := hop haccepts
      rw [haccepts.addBlock_eq]
      exact h.append rfl (fun tx htx => (hfresh tx htx).2)
        fun tx htx => ⟨htx, fun hin => (hfresh tx hin).1 htx⟩
    · rw [Blockchain.addBlock_of_not_accepts haccepts]
      exact h
  | minerRound now =>
    rw [Op.next]
    rcases bc.minerRound_cases now with ⟨hpay, before, after, hround⟩ | ⟨-, hround⟩
    · have hempty : bc.mempool = [] := hop.resolve_right (not_not.mpr hpay)
      rw [hround]
      exact h.append rfl h.pending (by simp [hempty])
    · rw [hround]
      exact h

theorem ofGenesis {now : UInt64} {genesis : GenesisConfig}
    (hnew : Blockchain.new now genesis = .ok bc) : Separate bc := by
  obtain ⟨root, -, rfl⟩ := Blockchain.new_eq_ok hnew
  exact ⟨by simp, List.pairwise_singleton _ _⟩

end Separate

/-- Along every run of exclusive steps, no transaction is in two blocks of the chain. -/
theorem included_at_most_once {now : UInt64} {genesis : GenesisConfig} {bc : Blockchain}
    (hnew : Blockchain.new now genesis = .ok bc) (ops : List Op)
    (hops : chainMachine.Guarded Exclusive bc ops) :
    (chainMachine.run bc ops).1.chain.Pairwise
      fun b b' => ∀ tx, tx ∈ b.transactions → tx ∉ b'.transactions := by
  have hrun := Machine.run_invariant Separate (fun _ => True)
    (fun bc op hinv hguard => ⟨hinv.next hguard, fun _ _ => trivial⟩)
    (Separate.ofGenesis hnew) hops
  exact hrun.1.blocks

theorem included_at_most_once_fiveUnits :
    ∃ bc, Blockchain.new 0 Blockchain.fiveUnits = .ok bc ∧
      (chainMachine.run bc [.addTransaction Blockchain.payment, .mineBlock 0,
        .minerRound 0]).1.chain.Pairwise
          fun b b' => ∀ tx, tx ∈ b.transactions → tx ∉ b'.transactions := by
  obtain ⟨bc, hbc⟩ := Blockchain.exists_new 0 Blockchain.fiveUnits
  refine ⟨bc, hbc, included_at_most_once hbc _ ⟨?_, trivial, .inl ?_, trivial⟩⟩
  · obtain ⟨root, -, rfl⟩ := Blockchain.new_eq_ok hbc
    simp [Exclusive, Blockchain.Unmined, Block.new]
  -- The payment is mined, so the miner finds nothing.
  · obtain ⟨s', block, -, -, hmine⟩ :=
      (bc.addTransaction Blockchain.payment).exists_mined 0 (Blockchain.payable_payment hbc)
    show ((bc.addTransaction Blockchain.payment).mineBlock 0).1.mempool = []
    rw [hmine]

/-! ### The miner on its own -/

/-- Two rounds of the miner put what is pending, as long as it is payable, in two blocks. -/
theorem minerRound_twice {bc : Blockchain} (hpay : Payable bc.state bc.mempool)
    (now later : UInt64) :
    ∃ b b', ((bc.minerRound now).minerRound later).chain = bc.chain ++ [b, b'] ∧
      b.transactions = bc.mempool ∧ b'.transactions = bc.mempool := by
  rcases bc.minerRound_cases now with ⟨-, before, after, hround⟩ | ⟨hnot, -⟩
  · rw [hround]
    -- Ledger and mempool are those of before, so the second round does the same.
    rcases Blockchain.minerRound_cases ⟨bc.chain ++ [bc.nextBlock now before after], bc.state,
      bc.mempool, bc.chainId, by simp⟩ later with ⟨-, before', after', hround'⟩ | ⟨hnot, -⟩
    · rw [hround']
      exact ⟨_, _, List.append_assoc _ _ _, rfl, rfl⟩
    · exact absurd hpay hnot
  · exact absurd hpay hnot

/-- A payment is added once, and two rounds of the miner put it in two blocks. -/
theorem included_twice_fiveUnits :
    ∃ bc, Blockchain.new 0 Blockchain.fiveUnits = .ok bc ∧
      ∃ b b', (chainMachine.run bc [.addTransaction Blockchain.payment, .minerRound 0,
          .minerRound 0]).1.chain = bc.chain ++ [b, b'] ∧
        Blockchain.payment ∈ b.transactions ∧ Blockchain.payment ∈ b'.transactions := by
  obtain ⟨bc, hbc⟩ := Blockchain.exists_new 0 Blockchain.fiveUnits
  obtain ⟨b, b', hchain, hb, hb'⟩ := minerRound_twice (Blockchain.payable_payment hbc) 0 0
  refine ⟨bc, hbc, b, b', hchain, ?_, ?_⟩
  · rw [hb]
    simp [Blockchain.addTransaction]
  · rw [hb']
    simp [Blockchain.addTransaction]

end Gambit
