import GambitCore.Transaction.Wire

/-!
# What is signed, and what a receiver passes on

The bytes a signature is made over determine every field of a transaction that matters to
the ledger. The wire form carries the same fields, with the chain id folded into `v`, and
they come back from it unchanged.

The signature itself does not. After signing `Signature::v` is the bare recovery id; after
decoding it is the low byte of the EIP-155 value. `rlpEncodeSigned` adds `35 + 2 * chainId`
to either, so a decoded transaction is never encoded to the bytes it was decoded from, and
its hash is that of other bytes.

## Main results

* `rlpEncodeForSigning_injective` — signatures cover every field
* `fields_of_fromHex_toHex` — the wire form transports every field
* `not_relayed` — no decoded transaction keeps the bytes or the hash of its sender
-/

namespace Gambit

open Rlp Codec

namespace Transaction

/-! ### The signed bytes -/

/-- The tree `rlpEncodeForSigning` encodes. -/
def signingItem (tx : Transaction) : Item :=
  .list
    [.bytes (bigEndian tx.nonce.toNat), .bytes (bigEndian tx.gasPrice.toNat),
      .bytes (bigEndian tx.gasLimit.toNat), .bytes (toField tx.to_),
      .bytes (bigEndian tx.value.toNat), .bytes tx.data, .bytes (bigEndian tx.chainId.toNat),
      .bytes [], .bytes []]

theorem rlpEncodeForSigning_eq (tx : Transaction) :
    tx.rlpEncodeForSigning = tx.signingItem.encode := by
  simp [rlpEncodeForSigning, signingItem, Item.encode, Item.encodeEach, encodeUint_eq]

/-- The zero address is the only one written as the empty string. -/
theorem toField_injective : Function.Injective toField := by
  intro a b h
  have hb := readTo_toField b
  rw [← h, readTo_toField a] at hb
  exact Except.ok.inj hb

/-- Signatures cover every field: transactions with equal signed bytes agree in all of them. -/
theorem rlpEncodeForSigning_injective {tx tx' : Transaction}
    (hlen : tx.rlpEncodeForSigning.length < 2 ^ 64)
    (h : tx.rlpEncodeForSigning = tx'.rlpEncodeForSigning) :
    tx.nonce = tx'.nonce ∧ tx.gasPrice = tx'.gasPrice ∧ tx.gasLimit = tx'.gasLimit ∧
      tx.to_ = tx'.to_ ∧ tx.value = tx'.value ∧ tx.data = tx'.data ∧
      tx.chainId = tx'.chainId := by
  rw [rlpEncodeForSigning_eq] at hlen
  rw [rlpEncodeForSigning_eq, rlpEncodeForSigning_eq] at h
  have hitem := Item.encode_injective hlen h
  simp only [signingItem, Item.list.injEq, List.cons.injEq, Item.bytes.injEq, bigEndian_inj,
    and_true] at hitem
  obtain ⟨hnonce, hprice, hlimit, hto, hvalue, hdata, hchain⟩ := hitem
  exact ⟨hnonce, hprice, hlimit, toField_injective hto, hvalue, hdata, hchain⟩

theorem rlpEncodeForSigning_injective_devTx :
    (devTx 1).rlpEncodeForSigning = (devSigned sigChain1 1).rlpEncodeForSigning ∧
      (devTx 1).chainId = (devSigned sigChain1 1).chainId := by
  have hbytes : (devTx 1).rlpEncodeForSigning = (devSigned sigChain1 1).rlpEncodeForSigning := by
    -- Field by field: as records the two differ in a hash that is not worth computing.
    simp only [rlpEncodeForSigning]
    rfl
  obtain ⟨-, -, -, -, -, -, hchain⟩ := rlpEncodeForSigning_injective (by decide +kernel) hbytes
  exact ⟨hbytes, hchain⟩

/-! ### The wire form -/

/-- What the decoder returns on a wire transaction, when it returns. -/
theorem fromHex_toHex_eq_ok {S : Secp256k1} {tx received : Transaction}
    (hr : tx.sig.r.length = 32) (hs : tx.sig.s.length = 32)
    (hlen : tx.rlpEncodeSigned.length < 2 ^ 64) (h : fromHex S tx.toHex = .ok received) :
    ∃ a, received = { tx.onWire with from_ := a } := by
  rw [fromHex_toHex S tx hr hs hlen] at h
  obtain ⟨a, -, ha⟩ := map_eq_ok.mp h
  exact ⟨a, ha.symm⟩

/-- The wire form transports every field: what comes back from it is what was sent. -/
theorem fields_of_fromHex_toHex {S : Secp256k1} {tx received : Transaction}
    (hchain : 2 * tx.chainId.toNat + 36 < 2 ^ 64) (hv : tx.sig.v = 0 ∨ tx.sig.v = 1)
    (hr : tx.sig.r.length = 32) (hs : tx.sig.s.length = 32)
    (hlen : tx.rlpEncodeSigned.length < 2 ^ 64) (h : fromHex S tx.toHex = .ok received) :
    received.nonce = tx.nonce ∧ received.gasPrice = tx.gasPrice ∧
      received.gasLimit = tx.gasLimit ∧ received.to_ = tx.to_ ∧ received.value = tx.value ∧
      received.data = tx.data ∧ received.chainId = tx.chainId ∧ received.sig.r = tx.sig.r ∧
      received.sig.s = tx.sig.s := by
  obtain ⟨a, rfl⟩ := fromHex_toHex_eq_ok hr hs hlen h
  exact ⟨rfl, rfl, rfl, rfl, rfl, rfl, readChainId_wireV (bare_iff.mp hv) hchain, rfl, rfl⟩

theorem fields_of_fromHex_toHex_devSigned :
    ∃ received, fromHex (devSecp sigChain1 otherKeyChain1) (devSigned sigChain1 1).toHex =
      .ok received ∧ received.to_ = (devTx 1).to_ ∧ received.chainId = 1 := by
  obtain ⟨-, -, -, hto, -, -, hchain, -⟩ := fields_of_fromHex_toHex (by decide) (by decide)
    (by decide) (by decide) (by decide +kernel) fromHex_devSigned_chain1
  exact ⟨_, fromHex_devSigned_chain1, hto, hchain⟩

/-! ### Passing a transaction on -/

/-- Reading a `v` and writing it again never gives the same `v`. The chain id restores it up
to its lowest bit, and its low byte is added on top. -/
theorem rewritten_v_ne (v : UInt64) : v.toUInt8.toUInt64 + 35 + 2 * readChainId v ≠ v := by
  intro h
  have hnat := congrArg UInt64.toNat h
  have hlt : v.toNat < 2 ^ 64 := v.toNat_lt
  simp only [toNat_readChainId, UInt64.toNat_add, UInt64.toNat_mul, UInt8.toNat_toUInt64,
    UInt64.toNat_toUInt8, UInt64.reduceToNat] at hnat
  -- From 35 on, an odd `v` would need the low byte 0, an even one the low byte 1.
  omega

theorem rlpEncodeSigned_onWire_ne {tx : Transaction} (a : Address)
    (hlen : tx.rlpEncodeSigned.length < 2 ^ 64) :
    ({ tx.onWire with from_ := a } : Transaction).rlpEncodeSigned ≠ tx.rlpEncodeSigned := by
  intro h
  rw [rlpEncodeSigned_eq] at hlen
  rw [rlpEncodeSigned_eq, rlpEncodeSigned_eq] at h
  have hitem := Item.encode_injective hlen h.symm
  simp only [signedItem, Item.list.injEq, List.cons.injEq, Item.bytes.injEq, bigEndian_inj,
    and_true] at hitem
  obtain ⟨-, -, -, -, -, -, hv, -⟩ := hitem
  exact rewritten_v_ne tx.wireV hv.symm

/-- `signWith` leaves the hash of the signed form. -/
theorem hash_of_signWith {S : Secp256k1} {k : KeyPair S} {tx signed : Transaction}
    (hsign : tx.signWith k = .ok signed) : signed.hash = signed.computeHash := by
  obtain ⟨sig, -, hrest⟩ := bind_eq_ok.mp hsign
  obtain ⟨a, -, hsigned⟩ := bind_eq_ok.mp hrest
  obtain rfl := Except.ok.inj hsigned
  rfl

/-- No transaction keeps its identity when it is relayed: whatever the decoder returns for a
signed transaction is encoded to other bytes, and away from collisions has another hash. -/
theorem not_relayed {S : Secp256k1} {k : KeyPair S} {tx signed received : Transaction}
    (hsign : tx.signWith k = .ok signed) (hlen : signed.rlpEncodeSigned.length < 2 ^ 64)
    (h : fromHex S signed.toHex = .ok received) :
    received.toHex ≠ signed.toHex ∧
      (NoCollision received.rlpEncodeSigned signed.rlpEncodeSigned →
        received.hash ≠ signed.hash) := by
  obtain ⟨recsig, -, hsig, -, -⟩ := signWith_eq_ok hsign
  have hr : signed.sig.r.length = 32 := by simp [hsig, recsig.compact.property]
  have hs : signed.sig.s.length = 32 := by simp [hsig, recsig.compact.property]
  obtain ⟨a, rfl⟩ := fromHex_toHex_eq_ok hr hs hlen h
  have hne := rlpEncodeSigned_onWire_ne a hlen
  constructor
  · intro htext
    exact hne (toHex_injective (List.append_cancel_left htext))
  · intro hcol hhash
    rw [hash_of_signWith hsign] at hhash
    exact hne (hcol (toHex_injective (List.append_cancel_left hhash)))

theorem not_relayed_devSigned :
    ∃ received, fromHex (devSecp sigChain1 otherKeyChain1) (devSigned sigChain1 1).toHex =
      .ok received ∧ received.toHex ≠ (devSigned sigChain1 1).toHex :=
  ⟨_, fromHex_devSigned_chain1,
    (not_relayed (devTx_signWith sigChain1 otherKeyChain1 1) (by decide +kernel)
      fromHex_devSigned_chain1).1⟩

/-- On chain 1 the transfer is sent with `v = 37`; what the receiver holds is written with
`v = 74`. -/
theorem rewritten_devSigned :
    (devTx 1).signWith (devKeyPair sigChain1 otherKeyChain1) = .ok (devSigned sigChain1 1) ∧
      (devSigned sigChain1 1).wireV = 37 ∧
      ∃ received, fromHex (devSecp sigChain1 otherKeyChain1) (devSigned sigChain1 1).toHex =
        .ok received ∧ received.wireV = 74 ∧ received.toHex ≠ (devSigned sigChain1 1).toHex := by
  refine ⟨devTx_signWith sigChain1 otherKeyChain1 1, by decide, _, fromHex_devSigned_chain1,
    by decide, fun htext => ?_⟩
  exact rlpEncodeSigned_onWire_ne _ (by decide +kernel)
    (toHex_injective (List.append_cancel_left htext))

end Transaction

end Gambit
