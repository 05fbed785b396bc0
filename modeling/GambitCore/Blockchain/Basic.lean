import GambitCore.Block.Basic
import GambitCore.State.Root

/-!
# The chain

`Blockchain` of `blockchain.cpp` with the template of `ZkMiningEngine` and a round of the
`Miner`. Every clock reading is an argument. The lock makes each call one step; a call that
throws part-way keeps what it has written, so `mineBlock` returns the chain it leaves
together with its outcome.

## Main definitions

* `Blockchain`, `Blockchain.new`, `validateTransaction`, `addTransaction`, `mineBlock`,
  `addBlock`
* `applyAll` — the loop of `mineBlock` over the mempool
* `buildBlockTemplate`, `minerRound`
-/

namespace Gambit

open Rlp

/-- `Blockchain`. The chain holds the genesis block from the constructor on. -/
structure Blockchain where
  chain : List Block
  state : State
  mempool : List Transaction
  chainId : UInt64
  chain_ne_nil : chain ≠ []

namespace Blockchain

/-- `chain_.back()`. -/
def back (bc : Blockchain) : Block := bc.chain.getLast bc.chain_ne_nil

/-- The constructor with `initGenesis`. -/
def new (now : UInt64) (genesis : GenesisConfig) : Result Blockchain := do
  let state := State.ofGenesis genesis
  let root ← state.root
  let genesisBlock :=
    Block.new now 0 (str "0x00") root root (str "0x00")
      (ZkProver.generate root root (str "0x00"))
  return ⟨[genesisBlock], state, [], genesis.chainId, by simp⟩

/-- `validateTransaction`: the message of the check that fails. -/
def validateTransaction (S : Secp256k1) (bc : Blockchain) (tx : Transaction) :
    Except String Unit :=
  if tx.chainId ≠ bc.chainId then .error "Invalid chainId"
  else if !tx.verifySignature S then .error "Invalid signature"
  else
    let acc := bc.state.get tx.from_
    -- The committed ledger only: pending transactions do not count.
    let expectedNonce := (acc.map Account.nonce).getD 0
    if tx.nonce ≠ expectedNonce then .error "Invalid nonce"
    else
      let gasCost := tx.gasPrice * tx.gasLimit
      if tx.gasPrice ≠ 0 ∧ gasCost / tx.gasPrice ≠ tx.gasLimit then .error "Gas cost overflow"
      else
        let needed := gasCost + tx.value
        if needed < gasCost then .error "Total cost overflow"
        else
          let bal := (acc.map Account.balance).getD 0
          if bal < needed then .error "Insufficient funds" else .ok ()

/-- `addTransaction`: whatever the caller has checked. -/
def addTransaction (bc : Blockchain) (tx : Transaction) : Blockchain :=
  { bc with mempool := bc.mempool ++ [tx] }

/-- `computeTxRoot`. -/
def computeTxRoot (txs : List Transaction) : Str :=
  if txs.isEmpty then str "0x00"
  else toHex (keccak256 (txs.flatMap fun tx => tx.toHex ++ str "|"))

/-- The block `mineBlock` and `buildBlockTemplate` put on top of the chain. -/
def nextBlock (bc : Blockchain) (now : UInt64) (before after : Str) : Block :=
  let txRoot := computeTxRoot bc.mempool
  { Block.new now (UInt64.ofNat bc.chain.length) bc.back.hash before after txRoot
      (ZkProver.generate before after txRoot) with
    transactions := bc.mempool }

end Blockchain

/-- The loop that applies transactions in order. The first that throws ends it, and what
was applied before stays. -/
def applyAll (s : State) : List Transaction → State × Result Unit
  | [] => (s, .ok ())
  | tx :: txs =>
    match s.applyTransaction tx.from_ tx with
    | (s', .ok ()) => applyAll s' txs
    | (s', .error e) => (s', .error e)

/-- The receipts of a block, with the gas used so far. -/
def receiptsFrom (cumulativeGas : UInt64) : List Transaction → List Receipt
  | [] => []
  | tx :: txs =>
    let cumulativeGas := cumulativeGas + tx.gasLimit
    { status := true, cumulativeGasUsed := cumulativeGas } :: receiptsFrom cumulativeGas txs

/-- The loop over the receipts from index `i` on; a key is the low byte of the index. -/
def putReceipts (trie : MptTrie) (i : ℕ) : List Receipt → Result MptTrie
  | [] => .ok trie
  | r :: rs => do
    let value ← r.rlpEncode
    putReceipts (trie.put [UInt8.ofNat i] value) (i + 1) rs

namespace Blockchain

/-- The part of `mineBlock` behind the loop over the mempool, which writes nothing. -/
def sealBlock (bc : Blockchain) (now : UInt64) (before : Str) : Result Block := do
  let after ← bc.state.root
  let receipts := receiptsFrom 0 bc.mempool
  let receiptsTrie ← putReceipts MptTrie.new 0 receipts
  return { bc.nextBlock now before after with
    receipts, receiptsRoot := receiptsTrie.rootHash }

/-- `mineBlock`. The transactions are applied to the ledger itself. -/
def mineBlock (bc : Blockchain) (now : UInt64) : Blockchain × Result Block :=
  match bc.state.root with
  | .error e => (bc, .error e)
  | .ok before =>
    match applyAll bc.state bc.mempool with
    -- Nothing is rolled back.
    | (state, .error e) => ({ bc with state }, .error e)
    | (state, .ok ()) =>
      let bc := { bc with state }
      match bc.sealBlock now before with
      | .error e => (bc, .error e)
      | .ok block =>
        ({ bc with chain := bc.chain ++ [block], mempool := [], chain_ne_nil := by simp },
          .ok block)

/-- `addBlock`. The ledger is left as it is: the recorded roots are taken as given. -/
def addBlock (bc : Blockchain) (block : Block) : Blockchain × Bool :=
  if block.index ≠ UInt64.ofNat bc.chain.length then (bc, false)
  else if block.prevHash ≠ bc.back.hash then (bc, false)
  else if !ZkVerifier.verify block.proof then (bc, false)
  else ({ bc with chain := bc.chain ++ [block], chain_ne_nil := by simp }, true)

/-- `ZkMiningEngine::buildBlockTemplate`: `mineBlock` on a copy of the ledger, without
receipts. -/
def buildBlockTemplate (bc : Blockchain) (now : UInt64) : Result Block := do
  let before ← bc.state.root
  let (temp, outcome) := applyAll bc.state bc.mempool
  outcome
  let after ← temp.root
  return bc.nextBlock now before after

/-- One round of `Miner::loop`: the template is added to the chain, and an exception
ignored. -/
def minerRound (bc : Blockchain) (now : UInt64) : Blockchain :=
  match bc.buildBlockTemplate now with
  | .ok block => (bc.addBlock block).1
  | .error _ => bc

/-- What the constructor builds; it never throws. -/
theorem exists_new (now : UInt64) (genesis : GenesisConfig) : ∃ bc, new now genesis = .ok bc := by
  obtain ⟨trie, -, hroot⟩ := (State.ofGenesis genesis).root_eq_ok
  rw [new, hroot]
  exact ⟨_, rfl⟩

theorem new_eq_ok {now : UInt64} {genesis : GenesisConfig} {bc : Blockchain}
    (h : new now genesis = .ok bc) :
    ∃ root, (State.ofGenesis genesis).root = .ok root ∧
      bc = ⟨[Block.new now 0 (str "0x00") root root (str "0x00")
        (ZkProver.generate root root (str "0x00"))], State.ofGenesis genesis, [],
        genesis.chainId, by simp⟩ := by
  obtain ⟨root, hroot, hbc⟩ := bind_eq_ok.mp h
  exact ⟨root, hroot, (Except.ok.inj hbc).symm⟩

/-- `addBlock` appends the block or does nothing. -/
theorem addBlock_cases (bc : Blockchain) (block : Block) :
    bc.addBlock block = (bc, false) ∨
      bc.addBlock block =
        (⟨bc.chain ++ [block], bc.state, bc.mempool, bc.chainId, by simp⟩, true) := by
  unfold addBlock
  split
  · exact .inl rfl
  · split
    · exact .inl rfl
    · split
      · exact .inl rfl
      · exact .inr rfl

theorem addBlock_of_checks {bc : Blockchain} {block : Block}
    (hindex : block.index = UInt64.ofNat bc.chain.length) (hprev : block.prevHash = bc.back.hash)
    (hverify : ZkVerifier.verify block.proof = true) :
    bc.addBlock block =
      (⟨bc.chain ++ [block], bc.state, bc.mempool, bc.chainId, by simp⟩, true) := by
  simp [addBlock, hindex, hprev, hverify]

theorem addBlock_of_not_verify {bc : Blockchain} {block : Block}
    (hverify : ZkVerifier.verify block.proof = false) : bc.addBlock block = (bc, false) := by
  simp [addBlock, hverify]

end Blockchain

end Gambit
