import GambitCore.Transaction.Basic
import GambitCore.Rlp.RoundTrip

/-!
# Transactions on the wire

What `Transaction::fromHex` makes of the text `Transaction::toHex` writes. Every field
but `v` comes back as it was. The full EIP-155 `v` travels as a 64-bit integer but is
kept in the one byte of `Signature::v`, so the sender is recovered only while `v` is
below 256: up to chain id 109, and at 110 with recovery id 0.

## Main definitions

* `Transaction.WireFields` — the nine fields of the wire form
* `Transaction.signedItem` — the tree `rlpEncodeSigned` encodes
* `Transaction.onWire` — the fields the decoder reads back

## Main results

* `fromHex_toHex` — decoding a wire transaction, up to the recovery of the sender
* `fromHex_toHex_signed_iff` — when a signed transaction is accepted as its signer's
-/

namespace Gambit

open Rlp Codec

namespace Transaction

/-! ### Fields -/

/-- The fields of a wire transaction, with the full `v`. -/
structure WireFields where
  nonce : UInt64
  gasPrice : UInt64
  gasLimit : UInt64
  to_ : Address
  value : UInt64
  data : Bytes
  v : UInt64
  r : Bytes32
  s : Bytes32

namespace WireFields

/-- The nine strings a sender encodes. -/
def items (f : WireFields) : List Item :=
  [.bytes (bigEndian f.nonce.toNat), .bytes (bigEndian f.gasPrice.toNat),
    .bytes (bigEndian f.gasLimit.toNat), .bytes (toField f.to_),
    .bytes (bigEndian f.value.toNat), .bytes f.data, .bytes (bigEndian f.v.toNat),
    .bytes f.r.val, .bytes f.s.val]

/-- The bytes a sender writes. -/
def encode (f : WireFields) : Bytes := (Item.list f.items).encode

/-- What the decoder makes of the fields, before it recovers the sender. -/
def read (f : WireFields) : Transaction :=
  let tx : Transaction :=
    { nonce := f.nonce
      gasPrice := f.gasPrice
      gasLimit := f.gasLimit
      to_ := f.to_
      value := f.value
      data := f.data
      chainId := readChainId f.v
      sig := { r := f.r.val, s := f.s.val, v := f.v.toUInt8 } }
  { tx with hash := tx.computeHash }

/-- The transaction the decoder returns for the fields, if it can recover a sender. -/
def received (S : Secp256k1) (f : WireFields) : Result Transaction :=
  (recoverAddress S f.read.signingHash f.read.sig f.read.chainId).map
    fun a => { f.read with from_ := a }

end WireFields

theorem readTo_toField (a : Address) : readTo (toField a) = .ok a := by
  unfold readTo toField
  by_cases ha : a = Address.zero
  · simp [ha]
  · have hne : a.bytes ≠ [] := by
      intro hnil
      have hlen := a.length_bytes
      simp [hnil] at hlen
    simp [ha, hne, Address.fromBytes_bytes]

/-- The decoder on nine fields; items behind them are not looked at. -/
theorem ofDecoded_items (S : Secp256k1) (f : WireFields) (extra : List Item) :
    ofDecoded S (Item.list (f.items ++ extra)).toDecoded = f.received S := by
  simp only [WireFields.items, List.cons_append, Item.toDecoded, Item.toDecodedEach, ofDecoded,
    readTo_toField, toUint_bigEndian, f.r.property, f.s.property, ne_eq, not_true_eq_false,
    or_self, if_false, bind, pure, Except.bind, Except.pure]
  rfl

theorem fromHex_hex (S : Secp256k1) (w : Bytes) :
    fromHex S (str "0x" ++ Gambit.toHex w) = decode w >>= ofDecoded S := by
  simp only [fromHex, stripHexPrefix_prefixed, Gambit.fromHex_toHex, bind, Except.bind]

/-- The decoder on the text of nine or more items. -/
theorem fromHex_items (S : Secp256k1) (f : WireFields) {extra : List Item}
    (hlen : (Item.list (f.items ++ extra)).encode.length < 2 ^ 64) :
    fromHex S (str "0x" ++ Gambit.toHex (Item.list (f.items ++ extra)).encode) =
      f.received S := by
  rw [fromHex_hex, decode_encode _ hlen, ← ofDecoded_items S f extra]
  rfl

theorem fromHex_encode (S : Secp256k1) {f : WireFields} (hlen : f.encode.length < 2 ^ 64) :
    fromHex S (str "0x" ++ Gambit.toHex f.encode) = f.received S := by
  have hitems := @fromHex_items S f []
  rw [List.append_nil] at hitems
  exact hitems hlen

/-- The chain id as a truncated difference; below 35 it is 0. -/
theorem toNat_readChainId (v : UInt64) : (readChainId v).toNat = (v.toNat - 35) / 2 := by
  unfold readChainId
  split
  · next hge =>
    rw [UInt64.toNat_div, UInt64.toNat_sub_of_le _ _ hge]
    rfl
  · next hlt =>
    have hlt' : v.toNat < 35 := UInt64.not_le.mp hlt
    rw [Nat.sub_eq_zero_of_le hlt'.le]
    rfl

/-! ### Transactions -/

/-- The tree `rlpEncodeSigned` encodes. -/
def signedItem (tx : Transaction) : Item :=
  .list
    [.bytes (bigEndian tx.nonce.toNat), .bytes (bigEndian tx.gasPrice.toNat),
      .bytes (bigEndian tx.gasLimit.toNat), .bytes (toField tx.to_),
      .bytes (bigEndian tx.value.toNat), .bytes tx.data, .bytes (bigEndian tx.wireV.toNat),
      .bytes tx.sig.r, .bytes tx.sig.s]

theorem rlpEncodeSigned_eq (tx : Transaction) : tx.rlpEncodeSigned = tx.signedItem.encode := by
  simp [rlpEncodeSigned, signedItem, Item.encode, Item.encodeEach, encodeUint_eq]

/-- The fields the decoder reads back, before it recovers the sender. -/
def onWire (tx : Transaction) : Transaction :=
  let tx' : Transaction :=
    { nonce := tx.nonce
      gasPrice := tx.gasPrice
      gasLimit := tx.gasLimit
      to_ := tx.to_
      value := tx.value
      data := tx.data
      chainId := readChainId tx.wireV
      sig := { tx.sig with v := tx.wireV.toUInt8 } }
  { tx' with hash := tx'.computeHash }

/-- The fields a transaction with 32-byte `r` and `s` is sent as. -/
def wireFields (tx : Transaction) (hr : tx.sig.r.length = 32) (hs : tx.sig.s.length = 32) :
    WireFields :=
  ⟨tx.nonce, tx.gasPrice, tx.gasLimit, tx.to_, tx.value, tx.data, tx.wireV, ⟨tx.sig.r, hr⟩,
    ⟨tx.sig.s, hs⟩⟩

theorem rlpEncodeSigned_eq_encode {tx : Transaction} (hr : tx.sig.r.length = 32)
    (hs : tx.sig.s.length = 32) : tx.rlpEncodeSigned = (tx.wireFields hr hs).encode :=
  tx.rlpEncodeSigned_eq

/-- Decoding a wire transaction, up to the recovery of the sender. -/
theorem fromHex_toHex (S : Secp256k1) (tx : Transaction) (hr : tx.sig.r.length = 32)
    (hs : tx.sig.s.length = 32) (hlen : tx.rlpEncodeSigned.length < 2 ^ 64) :
    fromHex S tx.toHex =
      (recoverAddress S tx.onWire.signingHash tx.onWire.sig tx.onWire.chainId).map
        fun a => { tx.onWire with from_ := a } := by
  rw [rlpEncodeSigned_eq_encode hr hs] at hlen
  rw [toHex, rlpEncodeSigned_eq_encode hr hs, fromHex_encode S hlen]
  rfl

/-! ### Signed transactions -/

section Signed

variable {S : Secp256k1} {k : KeyPair S} {tx signed : Transaction}

theorem signingHash_congr {tx' : Transaction} (hnonce : tx'.nonce = tx.nonce)
    (hprice : tx'.gasPrice = tx.gasPrice) (hlimit : tx'.gasLimit = tx.gasLimit)
    (hto : tx'.to_ = tx.to_) (hvalue : tx'.value = tx.value) (hdata : tx'.data = tx.data)
    (hchain : tx'.chainId = tx.chainId) : tx'.signingHash = tx.signingHash := by
  simp only [signingHash, rlpEncodeForSigning, hnonce, hprice, hlimit, hto, hvalue, hdata, hchain]

/-- What `signWith` leaves, when it returns. -/
theorem signWith_eq_ok (hsign : tx.signWith k = .ok signed) :
    ∃ recsig, S.signRecoverable tx.signingHash k.priv = some recsig ∧
      signed.sig = ⟨recsig.compact.val.take 32, recsig.compact.val.drop 32,
        UInt8.ofNat recsig.recid.val⟩ ∧
      signed.from_ = addressOf k.pub ∧
      signed = { tx with sig := signed.sig, from_ := signed.from_, hash := signed.hash } := by
  unfold signWith at hsign
  cases hsig : k.sign tx.signingHash tx.chainId with
  | error e => simp [hsig, bind, Except.bind] at hsign
  | ok sig =>
    obtain ⟨recsig, hrec, rfl⟩ := k.sign_eq_ok hsig
    simp only [hsig, k.address_eq, bind, pure, Except.bind, Except.pure] at hsign
    obtain rfl := Except.ok.inj hsign
    exact ⟨recsig, hrec, rfl, rfl, rfl⟩

/-- `tx` carries the signature `recsig` of the key `k` over its own signing hash, with
recovery id 0 or 1 and a chain id for which the wire form of `v` does not wrap. -/
structure SignedAs (k : KeyPair S) (recsig : RecoverableSignature) (tx : Transaction) : Prop where
  signed : S.signRecoverable tx.signingHash k.priv = some recsig
  r_eq : tx.sig.r = recsig.compact.val.take 32
  s_eq : tx.sig.s = recsig.compact.val.drop 32
  v_eq : tx.sig.v.toNat = recsig.recid.val
  recid_le : recsig.recid.val ≤ 1
  chain_lt : 2 * tx.chainId.toNat + 36 < 2 ^ 64
  from_eq : tx.from_ = addressOf k.pub

theorem exists_signedAs (hsign : tx.signWith k = .ok signed)
    (hrecid : signed.sig.v = 0 ∨ signed.sig.v = 1)
    (hchain : 2 * tx.chainId.toNat + 36 < 2 ^ 64) : ∃ recsig, SignedAs k recsig signed := by
  obtain ⟨recsig, hrec, hsig, hfrom, hfields⟩ := signWith_eq_ok hsign
  have hv : signed.sig.v.toNat ≤ 1 := by
    rcases hrecid with h | h <;> simp [h]
  -- A recovery id is below 4, so the byte holds it.
  have hid : signed.sig.v.toNat = recsig.recid.val := by
    have hlt := recsig.recid.isLt
    rw [hsig]
    show (UInt8.ofNat recsig.recid.val).toNat = _
    rw [UInt8.toNat_ofNat']
    omega
  refine ⟨recsig, ⟨?_, by rw [hsig], by rw [hsig], hid, hid ▸ hv, ?_, hfrom⟩⟩
  · rw [hfields]
    exact hrec
  · rw [hfields]
    exact hchain

theorem toNat_wireV (hrecid : tx.sig.v.toNat ≤ 1) (hchain : 2 * tx.chainId.toNat + 36 < 2 ^ 64) :
    tx.wireV.toNat = tx.sig.v.toNat + 35 + 2 * tx.chainId.toNat := by
  simp only [wireV, UInt64.toNat_add, UInt64.toNat_mul, UInt8.toNat_toUInt64, UInt64.reduceToNat]
  omega

/-- Division by two drops the recovery id again. -/
theorem readChainId_wireV (hrecid : tx.sig.v.toNat ≤ 1)
    (hchain : 2 * tx.chainId.toNat + 36 < 2 ^ 64) : readChainId tx.wireV = tx.chainId := by
  apply UInt64.toNat_inj.mp
  rw [toNat_readChainId, toNat_wireV hrecid hchain]
  omega

namespace SignedAs

variable {recsig : RecoverableSignature}

theorem onWire_chainId (h : SignedAs k recsig tx) : tx.onWire.chainId = tx.chainId :=
  readChainId_wireV (h.v_eq ▸ h.recid_le) h.chain_lt

theorem onWire_signingHash (h : SignedAs k recsig tx) : tx.onWire.signingHash = tx.signingHash :=
  signingHash_congr rfl rfl rfl rfl rfl rfl h.onWire_chainId

theorem onWire_v (h : SignedAs k recsig tx) :
    tx.onWire.sig.v.toNat = (recsig.recid.val + 35 + 2 * tx.chainId.toNat) % 256 := by
  rw [← h.v_eq, ← toNat_wireV (h.v_eq ▸ h.recid_le) h.chain_lt]
  exact UInt64.toNat_toUInt8 _

/-- The decoder on a signed transaction, up to the recovery of the sender. -/
theorem fromHex_toHex (h : SignedAs k recsig tx) (hlen : tx.rlpEncodeSigned.length < 2 ^ 64) :
    fromHex S tx.toHex =
      (recoverAddress S tx.signingHash tx.onWire.sig tx.chainId).map
        fun a => { tx.onWire with from_ := a } := by
  rw [Transaction.fromHex_toHex S tx (by rw [h.r_eq]; simp [recsig.compact.property])
    (by rw [h.s_eq]; simp [recsig.compact.property]) hlen, h.onWire_signingHash, h.onWire_chainId]

/-- While `v` fits in its byte the sender is recovered. -/
theorem recoverAddress_of_fits (hS : S.Sound) (h : SignedAs k recsig tx)
    (hfits : recsig.recid.val + 35 + 2 * tx.chainId.toNat < 256) :
    recoverAddress S tx.signingHash tx.onWire.sig tx.chainId = .ok (addressOf k.pub) := by
  have hv := h.onWire_v
  rw [Nat.mod_eq_of_lt hfits] at hv
  exact recoverAddress_sign hS k h.signed (recoveryId_of_fits h.recid_le hv) h.r_eq h.s_eq

/-- Once `v` is cut, an address is recovered only if the low byte left is 0 or 1, and it is
that of the flipped key. -/
theorem recoverAddress_of_truncated_iff (h : SignedAs k recsig tx)
    (hbig : 256 ≤ recsig.recid.val + 35 + 2 * tx.chainId.toNat) {a : Address} :
    recoverAddress S tx.signingHash tx.onWire.sig tx.chainId = .ok a ↔
      (recsig.recid.val + 35 + 2 * tx.chainId.toNat) % 256 ≤ 1 ∧
        ∃ pub, S.flippedKey tx.signingHash k.priv = some pub ∧ addressOf pub = a := by
  have hv := h.onWire_v
  by_cases hbare : tx.onWire.sig.v.toNat ≤ 1
  · rw [recoverAddress_flipped_iff h.signed (recoveryId_of_truncated_bare h.recid_le hv hbare)
      h.r_eq h.s_eq]
    exact (and_iff_right (hv ▸ hbare)).symm
  · obtain ⟨e, herr⟩ := recoveryId_of_truncated h.recid_le hbig hv (Nat.lt_of_not_le hbare)
    refine iff_of_false ?_ fun hcut => hbare (hv ▸ hcut.1)
    simp [recoverAddress, herr, bind, Except.bind]

end SignedAs

/-- A signed transaction is decoded and attributed to its signer when its EIP-155 `v` fits
in one byte. Behind that the low byte is rejected, or read as the other recovery id; then the
transaction counts as the signer's only if the other key has the same 20-byte address. -/
theorem fromHex_toHex_signed_iff (hS : S.Sound) (hsign : tx.signWith k = .ok signed)
    (hrecid : signed.sig.v = 0 ∨ signed.sig.v = 1)
    (hchain : 2 * tx.chainId.toNat + 36 < 2 ^ 64)
    (hlen : signed.rlpEncodeSigned.length < 2 ^ 64) :
    (∃ received, fromHex S signed.toHex = .ok received ∧ k.address = .ok received.from_) ↔
      signed.sig.v.toNat + 35 + 2 * tx.chainId.toNat < 256 ∨
        ((signed.sig.v.toNat + 35 + 2 * tx.chainId.toNat) % 256 ≤ 1 ∧
          ∃ pub, S.flippedKey tx.signingHash k.priv = some pub ∧
            addressOf pub = addressOf k.pub) := by
  obtain ⟨recsig, h⟩ := exists_signedAs hsign hrecid hchain
  obtain ⟨-, -, -, -, hfields⟩ := signWith_eq_ok hsign
  have hchainId : signed.chainId = tx.chainId := by rw [hfields]
  have hhash : signed.signingHash = tx.signingHash := by rw [hfields]; rfl
  -- The decoder gets as far as the recovery; what it recovers decides.
  have hreceived : (∃ received, fromHex S signed.toHex = .ok received ∧
      k.address = .ok received.from_) ↔
        recoverAddress S signed.signingHash signed.onWire.sig signed.chainId =
          .ok (addressOf k.pub) := by
    rw [h.fromHex_toHex hlen, k.address_eq]
    cases recoverAddress S signed.signingHash signed.onWire.sig signed.chainId with
    | error e => simp [Except.map]
    | ok a => simp [Except.map, eq_comm]
  rw [hreceived, h.v_eq, ← hchainId, ← hhash]
  by_cases hfits : recsig.recid.val + 35 + 2 * signed.chainId.toNat < 256
  · exact iff_of_true (h.recoverAddress_of_fits hS hfits) (.inl hfits)
  · rw [h.recoverAddress_of_truncated_iff (Nat.le_of_not_lt hfits), or_iff_right hfits]

end Signed

/-! ### A transfer by the development key -/

/-- A transfer of nothing, as the development key signs it in the examples below. -/
def devTx (chainId : UInt64) : Transaction where
  to_ := ⟨[0x12, 0x34, 0x56, 0x78, 0x90, 0x12, 0x34, 0x56, 0x78, 0x90, 0x12, 0x34, 0x56, 0x78,
    0x90, 0x12, 0x34, 0x56, 0x78, 0x90], rfl⟩
  chainId

/-- `devTx` with the signature `sig`. -/
def devSigned (sig : RecoverableSignature) (chainId : UInt64) : Transaction :=
  let tx : Transaction :=
    { devTx chainId with
      sig := ⟨sig.compact.val.take 32, sig.compact.val.drop 32, UInt8.ofNat sig.recid.val⟩
      from_ := addressOf devPub }
  { tx with hash := tx.computeHash }

theorem devTx_signWith (sig : RecoverableSignature) (other : FixedBytes 64) (chainId : UInt64) :
    (devTx chainId).signWith (devKeyPair sig other) = .ok (devSigned sig chainId) := by
  have hsign : (devSecp sig other).signRecoverable (devTx chainId).signingHash devPriv =
      some sig := by simp [devSecp]
  simp only [signWith, KeyPair.sign, KeyPair.address_eq, bind, pure, Except.bind, Except.pure]
  rw [show (devKeyPair sig other).priv = devPriv from rfl, hsign]
  rfl

/-- The signature of `devTx 1`. -/
def sigChain1 : RecoverableSignature where
  compact :=
    ⟨[198, 207, 7, 178, 214, 107, 53, 188, 110, 5, 139, 130, 114, 43, 52, 15, 115, 44, 107, 80,
      210, 65, 76, 246, 75, 111, 231, 46, 105, 152, 95, 150, 30, 165, 95, 161, 105, 65, 24, 178,
      239, 221, 132, 242, 234, 177, 254, 249, 189, 128, 175, 138, 95, 132, 202, 87, 173, 151,
      119, 184, 27, 146, 66, 131], rfl⟩
  recid := ⟨0, by decide⟩

/-- What `sigChain1` recovers to under recovery id 1. -/
def otherKeyChain1 : FixedBytes 64 :=
  ⟨[81, 176, 163, 115, 183, 134, 111, 5, 75, 63, 144, 131, 21, 175, 64, 76, 176, 218, 9, 25, 76,
     41, 102, 19, 224, 202, 242, 185, 210, 104, 19, 137, 141, 155, 40, 177, 21, 89, 89, 128, 166,
     191, 238, 114, 42, 130, 84, 174, 146, 32, 239, 159, 90, 109, 151, 191, 205, 186, 2, 12, 3,
     166, 142, 236], rfl⟩

/-- The signature of `devTx 1337`, on the chain `main.cpp` runs. -/
def sigChain1337 : RecoverableSignature where
  compact :=
    ⟨[141, 37, 7, 40, 66, 51, 29, 206, 162, 137, 233, 113, 198, 13, 115, 143, 179, 142, 241,
      166, 20, 196, 102, 78, 16, 77, 17, 111, 240, 252, 192, 71, 43, 187, 79, 179, 184, 209, 58,
      31, 255, 27, 147, 43, 222, 239, 174, 31, 111, 132, 177, 213, 134, 212, 79, 246, 65, 48,
      219, 137, 120, 200, 7, 162], rfl⟩
  recid := ⟨1, by decide⟩

/-- What `sigChain1337` recovers to under recovery id 0. -/
def otherKeyChain1337 : FixedBytes 64 :=
  ⟨[194, 10, 40, 26, 43, 43, 90, 220, 135, 98, 198, 40, 121, 34, 94, 97, 57, 60, 116, 63, 98,
     254, 201, 112, 3, 6, 206, 193, 238, 77, 109, 250, 207, 42, 255, 170, 171, 52, 214, 95, 166,
     112, 249, 29, 102, 63, 38, 113, 13, 49, 28, 111, 143, 242, 104, 159, 93, 70, 155, 76, 22,
     204, 242, 210], rfl⟩

/-- The signature of `devTx 1` with a value of five units. -/
def sigFive : RecoverableSignature where
  compact :=
    ⟨[197, 122, 148, 211, 106, 216, 175, 131, 213, 43, 212, 37, 218, 189, 96, 87, 224, 51, 48, 90,
      88, 184, 210, 44, 250, 15, 93, 80, 88, 72, 208, 64, 113, 164, 169, 209, 68, 143, 200, 206,
      141, 234, 71, 23, 232, 66, 44, 116, 18, 47, 136, 22, 225, 168, 146, 178, 64, 124, 188, 171,
      159, 26, 146, 173], rfl⟩
  recid := ⟨1, by decide⟩

/-- What `sigFive` recovers to under recovery id 0. -/
def otherKeyFive : FixedBytes 64 :=
  ⟨[249, 59, 226, 115, 56, 128, 105, 29, 87, 235, 141, 193, 33, 205, 178, 11, 219, 159, 25, 96, 87,
     61, 167, 52, 214, 251, 29, 230, 244, 174, 97, 11, 103, 204, 78, 27, 162, 182, 149, 106, 62,
     139, 82, 140, 12, 133, 53, 91, 84, 203, 170, 53, 148, 98, 0, 44, 24, 18, 255, 156, 140, 127,
     62, 194], rfl⟩

/-- On chain 1 the decoder returns the transfer with its sender. -/
theorem fromHex_devSigned_chain1 :
    fromHex (devSecp sigChain1 otherKeyChain1) (devSigned sigChain1 1).toHex =
      .ok { (devSigned sigChain1 1).onWire with from_ := addressOf devPub } := by
  obtain ⟨recsig, h⟩ :=
    exists_signedAs (devTx_signWith sigChain1 otherKeyChain1 1) (by decide) (by decide)
  have hid : recsig.recid.val = 0 := by
    rw [← h.v_eq]
    decide
  have hrec := h.recoverAddress_of_fits devSecp_sound (by rw [hid]; decide)
  rw [h.fromHex_toHex (by decide +kernel), hrec]
  rfl

theorem fromHex_toHex_signed_chain1 :
    ∃ received, fromHex (devSecp sigChain1 otherKeyChain1) (devSigned sigChain1 1).toHex =
      .ok received ∧ (devKeyPair sigChain1 otherKeyChain1).address = .ok received.from_ :=
  (fromHex_toHex_signed_iff devSecp_sound (devTx_signWith sigChain1 otherKeyChain1 1) (by decide)
    (by decide) (by decide +kernel)).mpr (.inl (by decide))

/-- On the node's own chain a signed transfer does not come through: the low byte of its
`v = 2710` stands for another chain id. -/
theorem fromHex_toHex_signed_chain1337 :
    (devSecp sigChain1337 otherKeyChain1337).Sound ∧
      (devTx 1337).signWith (devKeyPair sigChain1337 otherKeyChain1337) =
        .ok (devSigned sigChain1337 1337) ∧
      (devSigned sigChain1337 1337).sig.v = 1 ∧
      fromHex (devSecp sigChain1337 otherKeyChain1337) (devSigned sigChain1337 1337).toHex =
        runtimeError "recoverAddress: chainId mismatch" := by
  have hsign := devTx_signWith sigChain1337 otherKeyChain1337 1337
  refine ⟨devSecp_sound, hsign, by decide, ?_⟩
  obtain ⟨recsig, h⟩ := exists_signedAs hsign (by decide) (by decide)
  -- 2710 = 10 * 256 + 150, and 150 is an EIP-155 value of chain 57.
  have hv : (devSigned sigChain1337 1337).onWire.sig.v = 150 := by decide
  have hid : recoveryId 150 1337 = runtimeError "recoverAddress: chainId mismatch" := by decide
  rw [h.fromHex_toHex (by decide +kernel), recoverAddress, hv,
    show (devSigned sigChain1337 1337).chainId = 1337 from rfl, hid]
  rfl

end Transaction

end Gambit
