import GambitCore.Keys
import GambitCore.Rlp.Decode

/-!
# Transactions

`Transaction` of `transaction.cpp`: the two RLP forms, for signing and for the wire, the
hashes over them, signing and signature verification, and the wire decoder `fromHex`.
The fields `from` and `to` of the source are `from_` and `to_` here.
-/

namespace Gambit

open Rlp

/-- `Transaction`. -/
structure Transaction where
  nonce : UInt64 := 0
  gasPrice : UInt64 := 0
  gasLimit : UInt64 := 0
  to_ : Address := Address.zero
  value : UInt64 := 0
  data : Bytes := []
  chainId : UInt64 := 1
  from_ : Address := Address.zero
  sig : Signature := {}
  hash : Str := []
  deriving DecidableEq

namespace Transaction

/-- The recipient field: the zero address, for contract creation, is the empty string. -/
def toField (a : Address) : Bytes := if a = Address.zero then [] else a.bytes

/-- `rlpEncodeForSigning`, with the EIP-155 fields `chainId, 0, 0`. -/
def rlpEncodeForSigning (tx : Transaction) : Bytes :=
  encodeList
    [encodeUint tx.nonce, encodeUint tx.gasPrice, encodeUint tx.gasLimit,
      encodeBytes (toField tx.to_), encodeUint tx.value, encodeBytes tx.data,
      encodeUint tx.chainId, encodeUint 0, encodeUint 0]

/-- The `v` of the wire form, `recid + 35 + 2 * chainId`. -/
def wireV (tx : Transaction) : UInt64 := tx.sig.v.toUInt64 + 35 + 2 * tx.chainId

/-- `rlpEncodeSigned`. -/
def rlpEncodeSigned (tx : Transaction) : Bytes :=
  encodeList
    [encodeUint tx.nonce, encodeUint tx.gasPrice, encodeUint tx.gasLimit,
      encodeBytes (toField tx.to_), encodeUint tx.value, encodeBytes tx.data,
      encodeUint tx.wireV, encodeBytes tx.sig.r, encodeBytes tx.sig.s]

/-- `signingHash`. -/
def signingHash (tx : Transaction) : Bytes32 := keccak256_32 tx.rlpEncodeForSigning

/-- `verifySignature`: an empty `from` is not compared. -/
def verifySignature (S : Secp256k1) (tx : Transaction) : Bool :=
  match recoverAddress S tx.signingHash tx.sig tx.chainId with
  | .ok recovered => tx.from_.isZero || recovered == tx.from_
  | .error _ => false

/-- `toHex`. -/
def toHex (tx : Transaction) : Str := str "0x" ++ Gambit.toHex tx.rlpEncodeSigned

/-- `computeHash`. -/
def computeHash (tx : Transaction) : Str :=
  str "0x" ++ Gambit.toHex (keccak256 tx.rlpEncodeSigned)

/-- `signWith`. -/
def signWith {S : Secp256k1} (tx : Transaction) (key : KeyPair S) : Result Transaction := do
  let sig ← key.sign tx.signingHash tx.chainId
  let tx := { tx with sig }
  let from_ ← key.address
  let tx := { tx with from_ }
  return { tx with hash := tx.computeHash }

/-- The recipient `fromHex` reads. -/
def readTo (b : Bytes) : Result Address :=
  if b = [] then .ok Address.zero else Address.fromBytes b

/-- The chain id `fromHex` reads out of the full `v`. -/
def readChainId (vFull : UInt64) : UInt64 := if vFull ≥ 35 then (vFull - 35) / 2 else 0

/-- The part of `fromHex` behind `rlp::decode`: at least nine items, of which only the
byte strings are read. The full `v` is cut to the low byte of `Signature::v`. -/
def ofDecoded (S : Secp256k1) (root : Decoded) : Result Transaction :=
  match root.isList, root.list with
  | true, l₀ :: l₁ :: l₂ :: l₃ :: l₄ :: l₅ :: l₆ :: l₇ :: l₈ :: _ => do
    let to_ ← readTo l₃.bytes
    let vFull := toUint l₆.bytes
    if l₇.bytes.length ≠ 32 ∨ l₈.bytes.length ≠ 32 then
      runtimeError "Transaction::fromHex: invalid r/s size"
    else
      let tx : Transaction :=
        { nonce := toUint l₀.bytes
          gasPrice := toUint l₁.bytes
          gasLimit := toUint l₂.bytes
          to_
          value := toUint l₄.bytes
          data := l₅.bytes
          chainId := readChainId vFull
          sig := { r := l₇.bytes, s := l₈.bytes, v := vFull.toUInt8 } }
      -- Taken with `v` as it is stored, so this is not the hash of the text received.
      let tx := { tx with hash := tx.computeHash }
      let from_ ← recoverAddress S tx.signingHash tx.sig tx.chainId
      return { tx with from_ }
  | _, _ => runtimeError "Transaction::fromHex: invalid RLP tx"

/-- `Transaction::fromHex`. The prefix is stripped here and once more by `gambit::fromHex`. -/
def fromHex (S : Secp256k1) (hex : Str) : Result Transaction := do
  let raw ← Gambit.fromHex (stripHexPrefix hex)
  let root ← Rlp.decode raw
  ofDecoded S root

theorem verifySignature_of_recoverAddress {S : Secp256k1} {tx : Transaction} {a : Address}
    (h : recoverAddress S tx.signingHash tx.sig tx.chainId = .ok a) :
    ({ tx with from_ := a } : Transaction).verifySignature S = true := by
  have hhash : ({ tx with from_ := a } : Transaction).signingHash = tx.signingHash := rfl
  simp only [verifySignature, hhash, h]
  simp

/-- What `fromHex` derives from the fields it has read: the hash, and then the sender. -/
theorem derived_of_fromHex {S : Secp256k1} {hex : Str} {tx : Transaction}
    (h : fromHex S hex = .ok tx) :
    tx.hash = tx.computeHash ∧
      recoverAddress S tx.signingHash tx.sig tx.chainId = .ok tx.from_ := by
  obtain ⟨raw, -, h⟩ := bind_eq_ok.mp h
  obtain ⟨root, -, h⟩ := bind_eq_ok.mp h
  unfold ofDecoded at h
  split at h
  · obtain ⟨to_, -, h⟩ := bind_eq_ok.mp h
    split at h
    · cases h
    · obtain ⟨from_, hrec, h⟩ := bind_eq_ok.mp h
      obtain rfl := Except.ok.inj h
      exact ⟨rfl, hrec⟩
  · cases h

/-- A decoded transaction always verifies: its sender is the address recovered from it. -/
theorem verifySignature_of_fromHex {S : Secp256k1} {hex : Str} {tx : Transaction}
    (h : fromHex S hex = .ok tx) : tx.verifySignature S = true :=
  verifySignature_of_recoverAddress (derived_of_fromHex h).2

theorem computeHash_ne_nil (tx : Transaction) : tx.computeHash ≠ [] := List.cons_ne_nil _ _

end Transaction

end Gambit
