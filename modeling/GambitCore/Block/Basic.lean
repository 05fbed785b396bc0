import GambitCore.Transaction.Basic
import GambitCore.Zk

/-!
# Blocks

`Block` of `block.cpp` with its receipts: the hash, the RLP encoder and the two decoders.
The encoder throws when the topic of a receipt's log is not hexadecimal text. The clock the
constructor reads is an argument.

`rlpDecode` and `fromHex` run the same code behind `rlp::decode`, with their own messages;
it is `Block.ofDecoded`.
-/

namespace Gambit

open Rlp

/-- `Log`. -/
structure Log where
  address : Address
  topics : List Str := []
  data : Bytes := []

/-- `Receipt`. -/
structure Receipt where
  status : Bool := true
  cumulativeGasUsed : UInt64 := 0
  logs : List Log := []

/-- One log of a receipt. -/
def Log.rlpEncode (log : Log) : Result Bytes := do
  let topicBytes ← log.topics.mapM fun t => encodeBytes <$> fromHex t
  return encodeList [encodeBytes log.address.bytes, encodeList topicBytes, encodeBytes log.data]

/-- `Receipt::rlpEncode`. -/
def Receipt.rlpEncode (r : Receipt) : Result Bytes := do
  let logItems ← r.logs.mapM Log.rlpEncode
  return encodeList
    [encodeUint (if r.status then 1 else 0), encodeUint r.cumulativeGasUsed, encodeList logItems]

/-- The bits of a `Bloom`. -/
structure Bloom where
  bits : FixedBytes 256

/-- `Bloom()`: no bit is set. -/
def Bloom.empty : Bloom := ⟨List.replicate 256 0, List.length_replicate⟩

/-- `Block`. The field `nonce` is left out: it is printed in log lines only. -/
structure Block where
  index : UInt64 := 0
  prevHash : Str := []
  stateBefore : Str := []
  stateAfter : Str := []
  txRoot : Str := []
  receiptsRoot : Str := []
  proof : ZkProof := {}
  timestamp : UInt64 := 0
  hash : Str := []
  transactions : List Transaction := []
  receipts : List Receipt := []
  logsBloom : Bloom := Bloom.empty

namespace Block

/-- `std::to_string`. -/
def decimal (n : UInt64) : Str := str (toString n.toNat)

/-- `computeHash`. -/
def computeHash (b : Block) : Str :=
  let concat :=
    decimal b.index ++ str "|" ++ b.prevHash ++ str "|" ++ b.stateBefore ++ str "|" ++
      b.stateAfter ++ str "|" ++ b.txRoot ++ str "|" ++ b.receiptsRoot ++ str "|" ++
      b.proof.commitment ++ str "|" ++ decimal b.timestamp
  Gambit.toHex (keccak256 concat)

/-- The constructor. The hash is taken before the receipts are known. -/
def new (now index : UInt64) (prevHash stateBefore stateAfter txRoot : Str) (proof : ZkProof) :
    Block :=
  let b : Block :=
    { index, prevHash, stateBefore, stateAfter, txRoot, proof, timestamp := now }
  { b with hash := b.computeHash }

/-- `rlpEncode`. -/
def rlpEncode (b : Block) : Result Bytes := do
  let txItems := b.transactions.map Transaction.rlpEncodeSigned
  let rcItems ← b.receipts.mapM Receipt.rlpEncode
  return encodeList
    [encodeUint b.index, encodeString b.prevHash, encodeString b.stateBefore,
      encodeString b.stateAfter, encodeString b.txRoot, encodeString b.proof.proof,
      encodeString b.proof.commitment, encodeUint b.timestamp, encodeString b.hash,
      encodeList txItems, encodeBytes b.logsBloom.bits.val, encodeList rcItems]

/-- `toHex`. -/
def toHex (b : Block) : Result Str := do
  let enc ← b.rlpEncode
  return str "0x" ++ Gambit.toHex enc

/-- The decoders behind `rlp::decode`: ten items or more, of which the tenth is a list. Each
item of that list is handed to `Transaction::fromHex` as the text of its byte string. -/
def ofDecoded (S : Secp256k1) (badBlock badTxs : String) (root : Decoded) : Result Block :=
  match root.isList, root.list with
  | true, l₀ :: l₁ :: l₂ :: l₃ :: l₄ :: l₅ :: l₆ :: l₇ :: l₈ :: l₉ :: _ =>
    if !l₉.isList then runtimeError badTxs
    else do
      -- `item.bytes` is empty for a nested list.
      let transactions ← l₉.list.mapM fun item =>
        Transaction.fromHex S (str "0x" ++ Gambit.toHex item.bytes)
      return {
        index := toUint l₀.bytes
        prevHash := l₁.bytes
        stateBefore := l₂.bytes
        stateAfter := l₃.bytes
        txRoot := l₄.bytes
        proof := { proof := l₅.bytes, commitment := l₆.bytes }
        timestamp := toUint l₇.bytes
        hash := l₈.bytes
        transactions }
  | _, _ => runtimeError badBlock

/-- `rlpDecode`. -/
def rlpDecode (S : Secp256k1) (raw : Bytes) : Result Block := do
  let root ← Rlp.decode raw
  ofDecoded S "Invalid RLP block" "Block txs must be list" root

/-- `fromHex`. -/
def fromHex (S : Secp256k1) (hex : Str) : Result Block := do
  let raw ← Gambit.fromHex (stripHexPrefix hex)
  let root ← Rlp.decode raw
  ofDecoded S "Block::fromHex: invalid RLP block" "Block::fromHex: tx list not a list" root

end Block

end Gambit
