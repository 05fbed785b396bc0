import GambitCore.Blockchain.Runs

/-!
# What a stored block guarantees

`addBlock` looks at the index, at the link to the last block, and at the proof. The proof is
checked against the texts inside it, so nothing ties it to the header of the block, and nothing
ties the header to the transactions or to the block's hash.

`mineBlock` fixes the hash of a block before it knows the root of the receipts, which the hash is
over. So no block it makes carries its own hash. The templates of the miner have no receipts, and
theirs is right.

## Main definitions

* `Blockchain.Accepts` — the three checks of `addBlock`
* `Block.hashText`, `Block.Hashed` — the text a hash is over, and a block that carries its hash

## Main results

* `Blockchain.next_cases` — what a call can do to the blocks and the pending transactions
* `accepted_block_checked` — what is known of an accepted block
* `stored_hashes_iff` — the runs after which every block on the chain carries its hash
-/

namespace Gambit

/-! ### Acceptance -/

namespace Blockchain

/-- The three checks of `addBlock`. -/
structure Accepts (bc : Blockchain) (block : Block) : Prop where
  index_eq : block.index = UInt64.ofNat bc.chain.length
  prevHash_eq : block.prevHash = bc.back.hash
  verify : ZkVerifier.verify block.proof = true

theorem Accepts.addBlock_eq {bc : Blockchain} {block : Block} (h : bc.Accepts block) :
    bc.addBlock block =
      (⟨bc.chain ++ [block], bc.state, bc.mempool, bc.chainId, by simp⟩, true) :=
  addBlock_of_checks h.index_eq h.prevHash_eq h.verify

theorem addBlock_of_not_accepts {bc : Blockchain} {block : Block} (h : ¬ bc.Accepts block) :
    bc.addBlock block = (bc, false) := by
  unfold addBlock
  split
  · rfl
  · next hindex =>
    split
    · rfl
    · next hprev =>
      split
      · rfl
      · next hverify =>
        exact absurd ⟨not_not.mp hindex, not_not.mp hprev, by simpa using hverify⟩ h

theorem addBlock_eq_true_iff {bc : Blockchain} {block : Block} :
    (bc.addBlock block).2 = true ↔ bc.Accepts block := by
  by_cases h : bc.Accepts block
  · simp [h, h.addBlock_eq]
  · simp [h, addBlock_of_not_accepts h]

/-- What a call can do to the blocks and the pending transactions. Nothing, but for a transaction
that comes in; or a block with the right index and link is put on top, and what was pending stays or
is in the block. -/
theorem next_cases (bc : Blockchain) (op : Op) :
    ((op.next bc).chain = bc.chain ∧ bc.mempool ⊆ (op.next bc).mempool) ∨
      ∃ block, (op.next bc).chain = bc.chain ++ [block] ∧
        block.index = UInt64.ofNat bc.chain.length ∧ block.prevHash = bc.back.hash ∧
        (bc.mempool ⊆ (op.next bc).mempool ∨ block.transactions = bc.mempool) := by
  cases op with
  | addTransaction tx => exact .inl ⟨rfl, List.subset_append_left _ _⟩
  | mineBlock now =>
    rcases bc.mineBlock_cases now with ⟨s', block, -, hsealed, hmine⟩ | ⟨s', e, -, hmine⟩
    · obtain ⟨before, after, receiptsRoot, -, -, rfl⟩ := hsealed
      exact .inr ⟨_, congrArg (fun r => r.1.chain) hmine, rfl, rfl, .inr rfl⟩
    · rw [Op.next, hmine]
      exact .inl ⟨rfl, List.Subset.refl _⟩
  | addBlock block =>
    by_cases h : bc.Accepts block
    · rw [Op.next, h.addBlock_eq]
      exact .inr ⟨block, rfl, h.index_eq, h.prevHash_eq, .inl (List.Subset.refl _)⟩
    · rw [Op.next, addBlock_of_not_accepts h]
      exact .inl ⟨rfl, List.Subset.refl _⟩
  | minerRound now =>
    rcases bc.minerRound_cases now with ⟨-, before, after, hround⟩ | ⟨-, hround⟩
    · rw [Op.next, hround]
      exact .inr ⟨_, rfl, rfl, rfl, .inl (List.Subset.refl _)⟩
    · rw [Op.next, hround]
      exact .inl ⟨rfl, List.Subset.refl _⟩

end Blockchain

theorem verify_iff {p : ZkProof} : ZkVerifier.verify p = true ↔
    p.commitment =
      toHex (keccak256 (commitmentText p.proof p.stateBefore p.stateAfter p.txRoot)) := by
  rw [ZkVerifier.verify, beq_iff_eq, eq_comm]

/-- A proof that verifies is the generated one exactly when its other four fields are. -/
theorem eq_generate_iff {p : ZkProof} (hverify : ZkVerifier.verify p = true)
    (before after txRoot : Str) : p = ZkProver.generate before after txRoot ↔
      p.stateBefore = before ∧ p.stateAfter = after ∧ p.txRoot = txRoot ∧
        p.proof = (ZkProver.generate before after txRoot).proof := by
  constructor
  · rintro rfl
    exact ⟨rfl, rfl, rfl, rfl⟩
  · rintro ⟨rfl, rfl, rfl, hproof⟩
    have hcommit := verify_iff.mp hverify
    rw [hproof] at hcommit
    obtain ⟨proof, before, after, txRoot, commitment⟩ := p
    simp only at hproof hcommit
    rw [hproof, hcommit]
    rfl

/-- What is known of a block `addBlock` accepts: its place, its link, and that the proof commits
to its own texts. The proof is the one generated from the header exactly when these texts and the
proof string are; nothing is known of the transaction root. -/
theorem accepted_block_checked {bc : Blockchain} {b : Block} (h : (bc.addBlock b).2 = true) :
    b.index = UInt64.ofNat bc.chain.length ∧ b.prevHash = bc.back.hash ∧
      b.proof.commitment = toHex (keccak256
        (commitmentText b.proof.proof b.proof.stateBefore b.proof.stateAfter b.proof.txRoot)) ∧
      (b.proof = ZkProver.generate b.stateBefore b.stateAfter b.txRoot ↔
        b.proof.stateBefore = b.stateBefore ∧ b.proof.stateAfter = b.stateAfter ∧
          b.proof.txRoot = b.txRoot ∧
          b.proof.proof = (ZkProver.generate b.stateBefore b.stateAfter b.txRoot).proof) := by
  have hchecks := Blockchain.addBlock_eq_true_iff.mp h
  exact ⟨hchecks.index_eq, hchecks.prevHash_eq, verify_iff.mp hchecks.verify,
    eq_generate_iff hchecks.verify _ _ _⟩

/-- A block whose proof is about other roots than its header. -/
def mismatchedBlock (bc : Blockchain) : Block :=
  { foreignBlock bc with stateAfter := str "0x00" }

theorem accepts_mismatchedBlock (bc : Blockchain) : bc.Accepts (mismatchedBlock bc) :=
  ⟨rfl, rfl, verify_generate [] [] []⟩

theorem accepted_block_checked_mismatchedBlock :
    ∃ bc, Blockchain.new 0 {} = .ok bc ∧ (bc.addBlock (mismatchedBlock bc)).2 = true ∧
      (mismatchedBlock bc).index = UInt64.ofNat bc.chain.length := by
  obtain ⟨bc, hbc⟩ := Blockchain.exists_new 0 {}
  have haccepted := Blockchain.addBlock_eq_true_iff.mpr (accepts_mismatchedBlock bc)
  exact ⟨bc, hbc, haccepted, (accepted_block_checked haccepted).1⟩

/-- It is accepted, though neither its transaction root nor its proof is that of its own
transactions and header. -/
theorem inconsistent_block_accepted :
    ∃ bc, Blockchain.new 0 {} = .ok bc ∧
      let b := mismatchedBlock bc
      (bc.addBlock b).2 = true ∧ b.txRoot ≠ Blockchain.computeTxRoot b.transactions ∧
        b.proof ≠ ZkProver.generate b.stateBefore b.stateAfter b.txRoot := by
  obtain ⟨bc, hbc⟩ := Blockchain.exists_new 0 {}
  refine ⟨bc, hbc, Blockchain.addBlock_eq_true_iff.mpr (accepts_mismatchedBlock bc), ?_, ?_⟩
  · show ([] : Str) ≠ str "0x00"
    decide
  · intro hproof
    have hafter : ([] : Str) = str "0x00" := congrArg ZkProof.stateAfter hproof
    exact absurd hafter (by decide)

/-! ### Hashes -/

namespace Block

/-- The text `computeHash` hashes. -/
def hashText (b : Block) : Str :=
  decimal b.index ++ str "|" ++ b.prevHash ++ str "|" ++ b.stateBefore ++ str "|" ++
    b.stateAfter ++ str "|" ++ b.txRoot ++ str "|" ++ b.receiptsRoot ++ str "|" ++
    b.proof.commitment ++ str "|" ++ decimal b.timestamp

theorem computeHash_eq (b : Block) : b.computeHash = Gambit.toHex (keccak256 b.hashText) := rfl

theorem isNumber_decimal (n : UInt64) : Codec.IsNumber 10 (decimal n) n.toNat :=
  Codec.isNumber_toString n.toNat

theorem decimal_injective : Function.Injective decimal := by
  intro m n h
  have hm := isNumber_decimal m
  rw [h] at hm
  exact UInt64.toNat_inj.mp (hm.unique (isNumber_decimal n))

/-- The block carries its hash. -/
def Hashed (b : Block) : Prop := b.hash = b.computeHash

/-- The block as the constructor saw it, before the root of the receipts was known. -/
def unsealed (b : Block) : Block := { b with receiptsRoot := [] }

theorem hashed_new (now index : UInt64) (prevHash before after txRoot : Str) (proof : ZkProof) :
    (Block.new now index prevHash before after txRoot proof).Hashed := rfl

/-- The root of the receipts is missing from the constructor's text. -/
theorem unsealed_hashText_ne {b : Block} (h : b.receiptsRoot ≠ []) :
    b.unsealed.hashText ≠ b.hashText := by
  intro htext
  have hlen := congrArg List.length htext
  have hpos := List.length_pos_iff.mpr h
  simp only [hashText, unsealed, List.length_append, List.length_nil] at hlen
  omega

/-- A block hashed before its receipts were known does not carry its hash. -/
theorem not_hashed_of_unsealed {b : Block} (hroot : b.receiptsRoot ≠ [])
    (hhash : b.hash = b.unsealed.computeHash)
    (hcol : NoCollision b.unsealed.hashText b.hashText) : ¬ b.Hashed := by
  intro hhashed
  have heq : b.unsealed.computeHash = b.computeHash := hhash.symm.trans hhashed
  rw [computeHash_eq, computeHash_eq] at heq
  exact unsealed_hashText_ne hroot (hcol (toHex_injective heq))

end Block

namespace Blockchain

variable {bc bc' : Blockchain} {now : UInt64} {block : Block}

/-- A block is hashed when it is built; the root of its receipts comes later and is not empty. -/
theorem hash_of_sealBlock {before : Str} (h : bc.sealBlock now before = .ok block) :
    block.receiptsRoot ≠ [] ∧ block.hash = block.unsealed.computeHash := by
  obtain ⟨after, -, h⟩ := bind_eq_ok.mp h
  obtain ⟨trie, -, h⟩ := bind_eq_ok.mp h
  obtain rfl := Except.ok.inj h
  exact ⟨by simp [MptTrie.rootHash, str], rfl⟩

theorem hash_of_mineBlock (h : bc.mineBlock now = (bc', .ok block)) :
    block.receiptsRoot ≠ [] ∧ block.hash = block.unsealed.computeHash := by
  obtain ⟨_, _, -, hseal⟩ := exists_sealBlock_of_mined h
  exact hash_of_sealBlock hseal

/-- The templates of the miner carry their hash: they have no receipts. -/
theorem hashed_nextBlock (bc : Blockchain) (now : UInt64) (before after : Str) :
    (bc.nextBlock now before after).Hashed := rfl

end Blockchain

/-- Every block on the chain carries its hash. -/
def AllHashed (bc : Blockchain) : Prop := ∀ b ∈ bc.chain, b.Hashed

/-- The step puts no block without its hash on the chain: `mineBlock` is called only where it
throws, and a block from outside carries its hash or is refused. -/
def HashKept (bc : Blockchain) : Op → Prop
  | .mineBlock _ => ¬ Payable bc.state bc.mempool
  | .addBlock block => bc.Accepts block → block.Hashed
  | _ => True

/-- The two texts of a block that `mineBlock` returns do not collide. -/
def NoHashCollision (bc : Blockchain) (op : Op) : Prop :=
  ∀ now block, op = .mineBlock now → (bc.mineBlock now).2 = .ok block →
    NoCollision block.unsealed.hashText block.hashText

theorem allHashed_append {chain : List Block} {block : Block} :
    (∀ b ∈ chain ++ [block], b.Hashed) ↔ (∀ b ∈ chain, b.Hashed) ∧ block.Hashed := by
  rw [List.forall_mem_append, List.forall_mem_singleton]

theorem allHashed_next {bc : Blockchain} {op : Op} (hcol : NoHashCollision bc op) :
    AllHashed (op.next bc) ↔ AllHashed bc ∧ HashKept bc op := by
  cases op with
  | addTransaction tx => exact (and_iff_left trivial).symm
  | mineBlock now =>
    rcases bc.mineBlock_cases now with ⟨s', block, happlies, -, hmine⟩ | ⟨s', e, herr, hmine⟩
    · -- A block is made, and it does not carry its hash.
      obtain ⟨hroot, hhash⟩ := Blockchain.hash_of_mineBlock hmine
      have hbad := Block.not_hashed_of_unsealed hroot hhash
        (hcol now block rfl (congrArg Prod.snd hmine))
      have hpay := exists_applies_iff.mp ⟨s', happlies⟩
      refine iff_of_false ?_ fun h => h.2 hpay
      rw [Op.next, hmine, AllHashed, allHashed_append]
      exact fun h => hbad h.2
    · rw [Op.next, hmine]
      exact (and_iff_left (Blockchain.not_payable_of_error herr)).symm
  | addBlock block =>
    rw [Op.next, HashKept]
    by_cases h : bc.Accepts block
    · rw [h.addBlock_eq, AllHashed, allHashed_append, forall_prop_of_true h, AllHashed]
    · rw [Blockchain.addBlock_of_not_accepts h, and_iff_left fun haccepts => absurd haccepts h]
  | minerRound now =>
    rcases bc.minerRound_cases now with ⟨-, before, after, hround⟩ | ⟨-, hround⟩
    · rw [Op.next, hround, AllHashed, allHashed_append]
      exact Iff.rfl.and (iff_of_true (bc.hashed_nextBlock now before after) trivial)
    · rw [Op.next, hround]
      exact (and_iff_left trivial).symm

/-- After a run from the genesis block, every block on the chain carries its hash exactly when no
`mineBlock` call returned and every accepted block from outside came with its hash. -/
theorem stored_hashes_iff {now : UInt64} {genesis : GenesisConfig} {bc : Blockchain}
    (hnew : Blockchain.new now genesis = .ok bc) (ops : List Op)
    (hcol : chainMachine.Guarded NoHashCollision bc ops) :
    (∀ b ∈ (chainMachine.run bc ops).1.chain, b.hash = b.computeHash) ↔
      chainMachine.Guarded HashKept bc ops := by
  have hstart : AllHashed bc := by
    obtain ⟨root, -, rfl⟩ := Blockchain.new_eq_ok hnew
    exact List.forall_mem_singleton.mpr (Block.hashed_new _ _ _ _ _ _ _)
  have hrun := Machine.run_iff AllHashed (fun bc op => allHashed_next) hcol
  rw [and_iff_right hstart] at hrun
  exact hrun

theorem stored_hashes_minerRound :
    ∃ bc, Blockchain.new 0 Blockchain.fiveUnits = .ok bc ∧
      ∀ b ∈ (chainMachine.run bc [.addTransaction Blockchain.payment, .minerRound 0]).1.chain,
        b.hash = b.computeHash := by
  obtain ⟨bc, hbc⟩ := Blockchain.exists_new 0 Blockchain.fiveUnits
  refine ⟨bc, hbc, (stored_hashes_iff hbc _ ?_).mpr ⟨trivial, trivial, trivial⟩⟩
  exact ⟨nofun, nofun, trivial⟩

/-- The first block mined on a fresh chain: the text hashed for it is not the text of its final
fields. -/
theorem mined_block_not_hashed :
    ∃ bc, Blockchain.new 0 {} = .ok bc ∧
      ∃ b ∈ (chainMachine.run bc [.mineBlock 0]).1.chain, ∃ text,
        b.hash = toHex (keccak256 text) ∧ text ≠ b.hashText ∧
          (NoCollision text b.hashText → b.hash ≠ b.computeHash) := by
  obtain ⟨bc, hbc⟩ := Blockchain.exists_new 0 {}
  have hpay : Payable bc.state bc.mempool := by
    obtain ⟨root, -, rfl⟩ := Blockchain.new_eq_ok hbc
    trivial
  obtain ⟨s', b, -, -, hmine⟩ := bc.exists_mined 0 hpay
  obtain ⟨hroot, hhash⟩ := Blockchain.hash_of_mineBlock hmine
  refine ⟨bc, hbc, b, ?_, b.unsealed.hashText, hhash, Block.unsealed_hashText_ne hroot,
    Block.not_hashed_of_unsealed hroot hhash⟩
  show b ∈ (bc.mineBlock 0).1.chain
  simp [hmine]

end Gambit
