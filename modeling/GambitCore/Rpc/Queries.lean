import GambitCore.Miner
import GambitCore.Rpc.Blocks

/-!
# Numbers over RPC

`handle_blockNumber`, `handle_getBalance`, `handle_getTransactionCount` and the answer to
`net_version`. Unlike the numbers inside the objects of the lookups, these are printed with
`0x%llx` or in decimal digits. What `eth_blockNumber` answers is a valid parameter of
`eth_getBlockByNumber`.

## Main definitions

* `hexNumber` — the text `0x%llx` prints
* `blockNumber`, `getBalance`, `getTransactionCount`, `netVersion`

## Main results

* `found_hexNumber` — each block of a linked chain is found under the text of its index
-/

namespace Gambit

open Codec

/-- `snprintf(buf, sizeof(buf), "0x%llx", v)`. -/
def hexNumber (v : UInt64) : Str := str "0x" ++ hexText v.toNat

/-- `handle_blockNumber` up to the text of the reply. -/
def blockNumber (bc : Blockchain) : Reply := .result (quoted (hexNumber bc.back.index))

/-- What the two handlers for an account have in common: the field of an account that does not exist
is 0. -/
def accountQuery (field : Account → UInt64) (bc : Blockchain) (addrHex : Str) : Reply :=
  match Address.fromHex addrHex with
  | .ok addr => .result (quoted (hexNumber (((bc.state.get addr).map field).getD 0)))
  | .error _ => .error (-32602) (str "Invalid address")

/-- `handle_getBalance` up to the text of the reply. -/
def getBalance (bc : Blockchain) (addrHex : Str) : Reply := accountQuery Account.balance bc addrHex

/-- `handle_getTransactionCount` up to the text of the reply. -/
def getTransactionCount (bc : Blockchain) (addrHex : Str) : Reply :=
  accountQuery Account.nonce bc addrHex

/-- The answer to `net_version`. -/
def netVersion (bc : Blockchain) : Reply := .result (quoted (str (toString bc.chainId.toNat)))

/-- Each block of a linked chain is found under the text of its index. -/
theorem found_hexNumber {bc : Blockchain} (h : Linkage bc.chain)
    (hlen : bc.chain.length ≤ 2 ^ 64) {b : Block} (hb : b ∈ bc.chain) :
    (Request.getBlockByNumber (hexNumber b.index)).found bc = .ok (some (.block b)) := by
  obtain ⟨i, hi, rfl⟩ := List.getElem_of_mem hb
  have hlt : i < 2 ^ 64 := Nat.lt_of_lt_of_le hi hlen
  have hindex : (bc.chain[i].index).toNat = i := by
    rw [h.index_eq i hi, UInt64.toNat_ofNat_of_lt' hlt]
  rw [hexNumber, hindex]
  exact found_marked (List.getElem?_eq_getElem hi) hlt (isNumber_hexText i)

end Gambit
