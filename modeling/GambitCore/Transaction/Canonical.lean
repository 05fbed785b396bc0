import GambitCore.Transaction.Wire

/-!
# The wire forms of a transaction

`Transaction::fromHex` reads more texts than `Transaction::toHex` writes. A list of more than
nine items is read like its first nine, an item may be a list where a string is expected,
integers may have leading zeros or more than eight bytes, the zero recipient has two spellings,
headers need not be minimal and bytes behind the list are ignored. So one transaction has many
wire forms. Among them is exactly one in the form a sender writes: nine strings, integers
without leading zeros, and the empty string for the zero recipient.

## Main definitions

* `Canonical` — the encodings a sender writes
* `wireContents` — what the decoder reads, as against what it computes

## Main results

* `exists_canonical` — what is accepted has a canonical form that is read as the same transaction
* `canonical_form_unique` — and no other canonical form is read as the same fields
-/

namespace Gambit

open Rlp Codec

namespace Transaction

/-- The bytes of a wire transaction as a sender writes them. -/
def Canonical (w : Bytes) : Prop := ∃ f : WireFields, w = f.encode

/-- The fields of a transaction that are read from the wire, not computed from others. -/
def wireContents (tx : Transaction) :
    UInt64 × UInt64 × UInt64 × Address × UInt64 × Bytes × UInt64 × Signature :=
  (tx.nonce, tx.gasPrice, tx.gasLimit, tx.to_, tx.value, tx.data, tx.chainId, tx.sig)

/-! ### Reading -/

/-- Whatever is accepted is read as nine fields, the data taken out of the input. -/
theorem exists_wireFields {S : Secp256k1} {w : Bytes} {tx : Transaction}
    (h : fromHex S (str "0x" ++ Gambit.toHex w) = .ok tx) :
    ∃ f : WireFields, f.data.length ≤ w.length ∧ f.received S = .ok tx := by
  rw [fromHex_hex] at h
  obtain ⟨root, hroot, h⟩ := bind_eq_ok.mp h
  have hbytes := length_bytes_of_decode hroot
  unfold ofDecoded at h
  split at h
  · next l₀ l₁ l₂ l₃ l₄ l₅ l₆ l₇ l₈ rest _ hlist =>
    obtain ⟨to_, -, h⟩ := bind_eq_ok.mp h
    split at h
    · cases h
    · next hsize =>
      obtain ⟨hr, hs⟩ := not_or.mp hsize
      have hdata : l₅.bytes.length ≤ w.length := hbytes l₅ (by simp [hlist])
      refine ⟨⟨toUint l₀.bytes, toUint l₁.bytes, toUint l₂.bytes, to_, toUint l₄.bytes, l₅.bytes,
        toUint l₆.bytes, ⟨l₇.bytes, not_not.mp hr⟩, ⟨l₈.bytes, not_not.mp hs⟩⟩, hdata, ?_⟩
      obtain ⟨a, hrec, h⟩ := bind_eq_ok.mp h
      obtain rfl := Except.ok.inj h
      exact map_eq_ok.mpr ⟨a, hrec, rfl⟩
  · cases h

/-! ### Canonical forms -/

theorem length_toField_le (a : Address) : (toField a).length ≤ 20 := by
  unfold toField
  split
  · simp
  · exact a.length_bytes.le

/-- Besides the data, a canonical form has a few hundred bytes at most. -/
theorem length_encode_le (f : WireFields) : f.encode.length ≤ f.data.length + 300 := by
  have hnonce := length_encodeUint_le f.nonce
  have hprice := length_encodeUint_le f.gasPrice
  have hlimit := length_encodeUint_le f.gasLimit
  have hvalue := length_encodeUint_le f.value
  have hv := length_encodeUint_le f.v
  have hto := length_encodeBytes_le (toField f.to_)
  have hto' := length_toField_le f.to_
  have hdata := length_encodeBytes_le f.data
  have hr := length_encodeBytes_le f.r.val
  have hs := length_encodeBytes_le f.s.val
  have hlist := length_encodeList_le (Item.encodeEach f.items)
  rw [f.r.property] at hr
  rw [f.s.property] at hs
  rw [WireFields.encode, Item.encode]
  simp only [WireFields.items, Item.encodeEach, Item.encode, ← encodeUint_eq, List.flatten_cons,
    List.flatten_nil, List.append_nil, List.length_append] at hlist ⊢
  omega

/-- What is accepted has a canonical form that is read as the same transaction. -/
theorem exists_canonical {S : Secp256k1} {w : Bytes} {tx : Transaction} (hlen : w.length < 2 ^ 63)
    (h : fromHex S (str "0x" ++ Gambit.toHex w) = .ok tx) :
    ∃ w', Canonical w' ∧ w'.length < 2 ^ 64 ∧
      fromHex S (str "0x" ++ Gambit.toHex w') = .ok tx := by
  obtain ⟨f, hdata, hread⟩ := exists_wireFields h
  have hlen' : f.encode.length < 2 ^ 64 := by
    have hle := length_encode_le f
    omega
  refine ⟨f.encode, ⟨f, rfl⟩, hlen', ?_⟩
  rw [fromHex_encode S hlen', hread]

/-- The full `v` is determined by the chain id read from it, which lacks its lowest bit, and by
its low byte. -/
theorem v_eq_of_readChainId {v v' : UInt64} (hchain : readChainId v = readChainId v')
    (hbyte : v.toUInt8 = v'.toUInt8) : v = v' := by
  have hchain' := congrArg UInt64.toNat hchain
  have hbyte' := congrArg UInt8.toNat hbyte
  rw [UInt64.toNat_toUInt8, UInt64.toNat_toUInt8] at hbyte'
  rw [toNat_readChainId, toNat_readChainId] at hchain'
  apply UInt64.toNat_inj.mp
  omega

theorem wireFields_eq_of_wireContents {f g : WireFields}
    (h : f.read.wireContents = g.read.wireContents) : f = g := by
  obtain ⟨fnonce, fprice, flimit, fto, fvalue, fdata, fv, fr, fs⟩ := f
  obtain ⟨gnonce, gprice, glimit, gto, gvalue, gdata, gv, gr, gs⟩ := g
  simp only [wireContents, WireFields.read, Prod.mk.injEq, Signature.mk.injEq] at h
  obtain ⟨rfl, rfl, rfl, rfl, rfl, rfl, hchain, hr, hs, hbyte⟩ := h
  obtain rfl := v_eq_of_readChainId hchain hbyte
  obtain rfl := Subtype.ext hr
  obtain rfl := Subtype.ext hs
  rfl

theorem wireContents_of_received {S : Secp256k1} {f : WireFields} {tx : Transaction}
    (h : f.received S = .ok tx) : tx.wireContents = f.read.wireContents := by
  obtain ⟨a, -, rfl⟩ := map_eq_ok.mp h
  rfl

/-- Canonical forms that are read as the same fields are equal. -/
theorem canonical_eq_of_wireContents {S : Secp256k1} {w w' : Bytes} {tx tx' : Transaction}
    (hw : Canonical w) (hw' : Canonical w') (hlen : w.length < 2 ^ 64)
    (hlen' : w'.length < 2 ^ 64) (h : fromHex S (str "0x" ++ Gambit.toHex w) = .ok tx)
    (h' : fromHex S (str "0x" ++ Gambit.toHex w') = .ok tx')
    (hsame : tx.wireContents = tx'.wireContents) : w = w' := by
  obtain ⟨f, rfl⟩ := hw
  obtain ⟨g, rfl⟩ := hw'
  rw [fromHex_encode S hlen] at h
  rw [fromHex_encode S hlen'] at h'
  rw [wireContents_of_received h, wireContents_of_received h'] at hsame
  rw [wireFields_eq_of_wireContents hsame]

theorem canonical_rlpEncodeSigned {tx : Transaction} (hr : tx.sig.r.length = 32)
    (hs : tx.sig.s.length = 32) : Canonical tx.rlpEncodeSigned :=
  ⟨tx.wireFields hr hs, rlpEncodeSigned_eq_encode hr hs⟩

/-! ### A tenth item -/

/-- The fields of the transfer on chain 1. -/
def devFields : WireFields := (devSigned sigChain1 1).wireFields (by decide) (by decide)

/-- The transfer on chain 1 with an empty string behind its nine fields. -/
def devTenItems : Bytes := (Item.list (devFields.items ++ [.bytes []])).encode

theorem received_devFields :
    devFields.received (devSecp sigChain1 otherKeyChain1) =
      .ok { (devSigned sigChain1 1).onWire with from_ := addressOf devPub } := by
  have h := fromHex_devSigned_chain1
  rw [toHex, rlpEncodeSigned_eq_encode (by decide) (by decide)] at h
  rw [← h]
  exact (fromHex_encode _ (by decide +kernel)).symm

theorem fromHex_devTenItems :
    fromHex (devSecp sigChain1 otherKeyChain1) (str "0x" ++ Gambit.toHex devTenItems) =
      .ok { (devSigned sigChain1 1).onWire with from_ := addressOf devPub } := by
  rw [devTenItems, fromHex_items _ devFields (by decide +kernel), received_devFields]

/-! ### Uniqueness -/

/-- Two accepted byte strings that are read as the same fields share one canonical form: it is
read as the same transaction, and either of the two that is canonical is it. -/
theorem canonical_form_unique {S : Secp256k1} {w₁ w₂ : Bytes} {tx₁ tx₂ : Transaction}
    (hlen₁ : w₁.length < 2 ^ 63) (hlen₂ : w₂.length < 2 ^ 63)
    (h₁ : fromHex S (str "0x" ++ Gambit.toHex w₁) = .ok tx₁)
    (h₂ : fromHex S (str "0x" ++ Gambit.toHex w₂) = .ok tx₂)
    (hsame : tx₁.wireContents = tx₂.wireContents) :
    ∃ w, Canonical w ∧ fromHex S (str "0x" ++ Gambit.toHex w) = .ok tx₁ ∧
      (Canonical w₁ → w₁ = w) ∧ (Canonical w₂ → w₂ = w) := by
  obtain ⟨w, hw, hlen, h⟩ := exists_canonical hlen₁ h₁
  refine ⟨w, hw, h, fun hw₁ => ?_, fun hw₂ => ?_⟩
  · exact canonical_eq_of_wireContents hw₁ hw (by omega) hlen h₁ h rfl
  · exact canonical_eq_of_wireContents hw₂ hw (by omega) hlen h₂ h hsame.symm

/-- The two wire forms of the transfer have the one its sender wrote. -/
theorem canonical_form_unique_devSigned :
    ∃ w, Canonical w ∧ w = (devSigned sigChain1 1).rlpEncodeSigned ∧
      fromHex (devSecp sigChain1 otherKeyChain1) (str "0x" ++ Gambit.toHex w) =
        .ok { (devSigned sigChain1 1).onWire with from_ := addressOf devPub } := by
  obtain ⟨w, hw, hread, hsent, -⟩ := canonical_form_unique (by decide +kernel)
    (by decide +kernel) fromHex_devSigned_chain1 fromHex_devTenItems rfl
  exact ⟨w, hw, (hsent (canonical_rlpEncodeSigned (by decide) (by decide))).symm, hread⟩

/-- The two differ, and are read as one transaction. -/
theorem ten_items_accepted :
    devTenItems ≠ (devSigned sigChain1 1).rlpEncodeSigned ∧
      ∃ tx, fromHex (devSecp sigChain1 otherKeyChain1)
          (str "0x" ++ Gambit.toHex (devSigned sigChain1 1).rlpEncodeSigned) = .ok tx ∧
        fromHex (devSecp sigChain1 otherKeyChain1) (str "0x" ++ Gambit.toHex devTenItems) =
          .ok tx := by
  refine ⟨by decide +kernel, _, fromHex_devSigned_chain1, fromHex_devTenItems⟩

end Transaction

end Gambit
