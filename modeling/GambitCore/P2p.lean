import GambitCore.Block.Wire
import GambitCore.Blockchain.Mining

/-!
# Messages between peers

The handlers of `P2PNode` for `NEW_TX` and `NEW_BLOCK`, whose payload is the hexadecimal
text of a transaction or a block. Exceptions are ignored.

A block on the wire has lost what its peer needs. With transactions the decoder throws.
Without, the proof arrives with its commitment but without the three texts the commitment is
over, and is refused.

## Main definitions

* `handleNewTx`, `handleNewBlock`
* `Accepted` — a peer puts a received block on its chain

## Main results

* `not_accepted_of_mineBlock` — no peer ever accepts a block `mineBlock` made
-/

namespace Gambit

/-- `P2PNode::handleNewTx`. `RpcServer::handle_sendRawTransaction` treats the chain in the same
way and makes a reply of the outcome. -/
def handleNewTx (S : Secp256k1) (bc : Blockchain) (hex : Str) : Blockchain :=
  match Transaction.fromHex S hex with
  | .error _ => bc
  | .ok tx =>
    match bc.validateTransaction S tx with
    | .error _ => bc
    | .ok () => bc.addTransaction tx

/-- `P2PNode::handleNewBlock`. -/
def handleNewBlock (S : Secp256k1) (bc : Blockchain) (hex : Str) : Blockchain :=
  match Block.fromHex S hex with
  | .error _ => bc
  | .ok block => (bc.addBlock block).1

/-- The peer puts a block on its chain when it receives the text of `block`. -/
def Accepted (S : Secp256k1) (peer : Blockchain) (block : Block) : Prop :=
  ∃ hex b, block.toHex = .ok hex ∧ (handleNewBlock S peer hex).chain = peer.chain ++ [b]

theorem handleNewBlock_of_error {S : Secp256k1} {peer : Blockchain} {hex : Str} {e : Exn}
    (h : Block.fromHex S hex = .error e) : handleNewBlock S peer hex = peer := by
  rw [handleNewBlock, h]

theorem handleNewBlock_of_not_verify {S : Secp256k1} {peer : Blockchain} {hex : Str} {b : Block}
    (h : Block.fromHex S hex = .ok b) (hverify : ZkVerifier.verify b.proof = false) :
    handleNewBlock S peer hex = peer := by
  rw [handleNewBlock, h]
  simp only [Blockchain.addBlock_of_not_verify hverify]

theorem toHex_eq_ok {block : Block} {hex : Str} (h : block.toHex = .ok hex) :
    ∃ raw, block.rlpEncode = .ok raw ∧ hex = str "0x" ++ toHex raw := by
  obtain ⟨raw, hraw, hhex⟩ := bind_eq_ok.mp h
  exact ⟨raw, hraw, (Except.ok.inj hhex).symm⟩

section Received

variable (S : Secp256k1) (peer : Blockchain) {block : Block} {hex : Str}
  (hlen : ∀ raw, block.rlpEncode = .ok raw → raw.length < 2 ^ 64)
  (hhex : block.toHex = .ok hex)

include hlen hhex

/-- A block with transactions is dropped: the decoder throws. -/
theorem handleNewBlock_of_transactions (htxs : block.transactions ≠ []) :
    handleNewBlock S peer hex = peer := by
  obtain ⟨raw, hraw, rfl⟩ := toHex_eq_ok hhex
  have hdecode := Block.fromHex_toHex S hraw (hlen raw hraw)
  rw [if_neg htxs] at hdecode
  exact handleNewBlock_of_error hdecode

/-- A block without transactions is dropped when its proof no longer verifies. -/
theorem handleNewBlock_of_no_transactions (htxs : block.transactions = [])
    (hverify : ZkVerifier.verify block.onWire.proof = false) :
    handleNewBlock S peer hex = peer := by
  obtain ⟨raw, hraw, rfl⟩ := toHex_eq_ok hhex
  have hdecode := Block.fromHex_toHex S hraw (hlen raw hraw)
  rw [if_pos htxs] at hdecode
  exact handleNewBlock_of_not_verify hdecode hverify

end Received

/-- No peer ever accepts a block `mineBlock` made, whether its chain is the same or not.
`hcol` is the absence of a collision between the two texts the verifier's commitment is
compared over, where it comes to that. -/
theorem not_accepted_of_mineBlock (S : Secp256k1) {node node' peer : Blockchain} {now : UInt64}
    {block : Block} (hmine : node.mineBlock now = (node', .ok block))
    (hlen : ∀ raw, block.rlpEncode = .ok raw → raw.length < 2 ^ 64)
    (hcol : node.mempool = [] →
      NoCollision (commitmentText block.proof.proof [] [] [])
        (commitmentText block.proof.proof block.proof.stateBefore block.proof.stateAfter
          block.proof.txRoot)) :
    ¬ Accepted S peer block := by
  rintro ⟨hex, b, hhex, hchain⟩
  have hdropped : handleNewBlock S peer hex = peer := by
    rcases node.mineBlock_cases now with ⟨s', b, -, hsealed, hok⟩ | ⟨s', e, -, herr⟩
    · obtain ⟨-, hb⟩ := Prod.mk.inj (hok.symm.trans hmine)
      obtain rfl := Except.ok.inj hb
      obtain ⟨before, after, receiptsRoot, hbefore, -, rfl⟩ := hsealed
      by_cases hmem : node.mempool = []
      -- The block is decoded, but its proof has lost the texts it commits to.
      · have hne : before ≠ [] := by
          obtain ⟨trie, -, hroot⟩ := node.state.root_eq_ok
          obtain rfl := Except.ok.inj (hbefore.symm.trans hroot)
          simp [MptTrie.rootHash, str]
        exact handleNewBlock_of_no_transactions S peer hlen hhex hmem
          (not_verify_stripped hne (hcol hmem))
      -- The decoder throws on the first transaction.
      · exact handleNewBlock_of_transactions S peer hlen hhex hmem
    · rw [herr] at hmine
      cases (Prod.mk.inj hmine).2
  rw [hdropped] at hchain
  simp at hchain

/-! ### A fresh chain -/

/-- The root of the empty ledger, and of an empty list of receipts. -/
def emptyRoot : Str := MptTrie.new.rootHash

/-- The chain without accounts, as the constructor leaves it. -/
def freshChain : Blockchain where
  chain := [Block.new 0 0 (str "0x00") emptyRoot emptyRoot (str "0x00")
    (ZkProver.generate emptyRoot emptyRoot (str "0x00"))]
  state := State.empty
  mempool := []
  chainId := 1
  chain_ne_nil := by simp

theorem new_eq_freshChain : Blockchain.new 0 {} = .ok freshChain := rfl

/-- The empty block `mineBlock` puts on it. -/
def freshBlock : Block :=
  { freshChain.nextBlock 0 emptyRoot emptyRoot with receiptsRoot := emptyRoot }

theorem mineBlock_freshChain :
    freshChain.mineBlock 0 =
      ({ freshChain with chain := freshChain.chain ++ [freshBlock], chain_ne_nil := by simp },
        .ok freshBlock) := rfl

theorem length_rlpEncode_freshBlock (raw : Bytes) (h : freshBlock.rlpEncode = .ok raw) :
    raw.length < 2 ^ 64 := by
  obtain rfl := Except.ok.inj h
  decide +kernel

theorem noCollision_freshBlock :
    NoCollision (commitmentText freshBlock.proof.proof [] [] [])
      (commitmentText freshBlock.proof.proof freshBlock.proof.stateBefore
        freshBlock.proof.stateAfter freshBlock.proof.txRoot) := by
  have hproof : freshBlock.proof =
      ZkProver.generate emptyRoot emptyRoot (str "0x00") := rfl
  have hne : keccak256 (commitmentText freshBlock.proof.proof [] [] []) ≠
      keccak256 (commitmentText freshBlock.proof.proof freshBlock.proof.stateBefore
        freshBlock.proof.stateAfter freshBlock.proof.txRoot) := by
    simp only [hproof, ZkProver.generate, emptyRoot, MptTrie.rootHash, keccak256_eq_eval]
    decide +kernel
  exact fun heq => absurd heq hne

theorem not_accepted_freshBlock :
    ¬ Accepted (devSecp Transaction.sigChain1 Transaction.otherKeyChain1) freshChain freshBlock :=
  not_accepted_of_mineBlock _ mineBlock_freshChain length_rlpEncode_freshBlock
    fun _ => noCollision_freshBlock

/-- Two fresh nodes: one mines an empty block and sends it, the other keeps its chain. -/
theorem handleNewBlock_freshBlock :
    Blockchain.new 0 {} = .ok freshChain ∧ (freshChain.mineBlock 0).2 = .ok freshBlock ∧
      ∃ hex, freshBlock.toHex = .ok hex ∧
        (handleNewBlock (devSecp Transaction.sigChain1 Transaction.otherKeyChain1) freshChain
          hex).chain = freshChain.chain := by
  obtain ⟨hex, hhex⟩ : ∃ hex, freshBlock.toHex = .ok hex := ⟨_, rfl⟩
  have hne : emptyRoot ≠ [] := by simp [emptyRoot, MptTrie.rootHash, str]
  have hdropped := handleNewBlock_of_no_transactions
    (devSecp Transaction.sigChain1 Transaction.otherKeyChain1) freshChain
    length_rlpEncode_freshBlock hhex rfl (not_verify_stripped hne noCollision_freshBlock)
  exact ⟨new_eq_freshChain, congrArg Prod.snd mineBlock_freshChain, hex, hhex, by rw [hdropped]⟩

end Gambit
