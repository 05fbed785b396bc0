import GambitCore.Address
import GambitCore.Hash.Lanes

/-!
# Keys and signatures

`KeyPair` and `Keys::recoverAddress` of `keys.cpp`. The curve itself is
libsecp256k1's: the functions the node calls are fields of `Secp256k1`, and what the
node relies on is stated as properties of them.

A `Signature` holds the recovery id in one byte `v`. The signer stores the bare id
there; `recoverAddress` also accepts a value of the form `35 + 2 * chainId + id`, as
far as it fits in the byte.

## Main definitions

* `Secp256k1`, `Secp256k1.Sound` — the library and what the node relies on
* `Secp256k1.Ideal` — that, and no recovery to the signer from another hash
* `Secp256k1.flippedKey` — the key a signature recovers to under the other recovery id
* `KeyPair`, `KeyPair.sign`, `recoverAddress`
* `devSecp` — the library on one signature of the development key of `main.cpp`

## Main results

* `recoverAddress_sign` — recovery from a fresh signature gives the signer's address
* `recoverAddress_sign_iff` — for ideal signatures, and for the signed hash only
* `recoveryId_of_fits`, `recoveryId_of_truncated_bare`, `recoveryId_of_truncated` — the
  recovery id read from an EIP-155 `v`, kept whole or cut to its low byte
-/

namespace Gambit

/-- A recoverable signature, as its compact serialisation and recovery id. -/
structure RecoverableSignature where
  compact : FixedBytes 64
  recid : Fin 4
  deriving DecidableEq

/-- The libsecp256k1 functions the node calls. A public key stands for the 64 bytes behind
the `0x04` of its uncompressed serialisation. -/
structure Secp256k1 where
  /-- `secp256k1_ec_seckey_verify`. -/
  seckeyVerify : Bytes32 → Bool
  /-- `secp256k1_ec_pubkey_create`. -/
  pubkeyCreate : Bytes32 → Option (FixedBytes 64)
  /-- `secp256k1_ecdsa_sign_recoverable`, on a message hash and a secret key. -/
  signRecoverable : Bytes32 → Bytes32 → Option RecoverableSignature
  /-- `secp256k1_ecdsa_recoverable_signature_parse_compact`. -/
  parseCompact : FixedBytes 64 → ℕ → Option RecoverableSignature
  /-- `secp256k1_ecdsa_recover`. -/
  recover : RecoverableSignature → Bytes32 → Option (FixedBytes 64)

/-- The key a default-constructed `KeyPair` holds. -/
def zeroKey : Bytes32 := ⟨List.replicate 32 0, rfl⟩

/-- What the node relies on: the zero key does not sign, and a signature recovers to the
public key of its secret key. -/
structure Secp256k1.Sound (S : Secp256k1) : Prop where
  sign_zeroKey : ∀ h, S.signRecoverable h zeroKey = none
  recover_sign : ∀ {h sk sig pub}, S.signRecoverable h sk = some sig →
    S.pubkeyCreate sk = some pub →
      ∃ sig', S.parseCompact sig.compact sig.recid = some sig' ∧ S.recover sig' h = some pub

/-- Ideal signatures: a signature recovers to the signer's address for the signed hash only. -/
structure Secp256k1.Ideal (S : Secp256k1) : Prop extends S.Sound where
  hash_eq_of_recover : ∀ {h h' sk sig sig' pub pub'}, S.signRecoverable h sk = some sig →
    S.pubkeyCreate sk = some pub → S.parseCompact sig.compact sig.recid = some sig' →
      S.recover sig' h' = some pub' → addressOf pub' = addressOf pub → h' = h

/-- The key a fresh signature recovers to when it is read under the other recovery id. -/
def Secp256k1.flippedKey (S : Secp256k1) (h sk : Bytes32) : Option (FixedBytes 64) := do
  let sig ← S.signRecoverable h sk
  let sig' ← S.parseCompact sig.compact (1 - sig.recid.val)
  S.recover sig' h

/-- `Signature`. -/
structure Signature where
  r : Bytes := []
  s : Bytes := []
  v : UInt8 := 0
  deriving DecidableEq

/-- `KeyPair`: the zero key of the default constructor, or a secret key with its public
key. -/
structure KeyPair (S : Secp256k1) where
  priv : Bytes32
  pub : FixedBytes 64
  derived : priv = zeroKey ∨ S.pubkeyCreate priv = some pub

namespace KeyPair

variable {S : Secp256k1}

/-- `KeyPair::fromPrivateKey`. -/
def fromPrivateKey (S : Secp256k1) (privKey : Bytes32) : Result (KeyPair S) :=
  if !S.seckeyVerify privKey then runtimeError "Invalid private key"
  else
    match h : S.pubkeyCreate privKey with
    | none => runtimeError "Failed to create secp256k1 public key"
    | some pub => .ok ⟨privKey, pub, .inr h⟩

/-- `KeyPair::address`. -/
def address (k : KeyPair S) : Result Address := Address.fromPublicKey k.pub.val

/-- `KeyPair::sign`. The chain id is not used: `v` is the bare recovery id. -/
def sign (k : KeyPair S) (msgHash : Bytes32) (_chainId : UInt64) : Result Signature :=
  match S.signRecoverable msgHash k.priv with
  | none => runtimeError "Failed to sign message"
  | some recsig =>
    .ok ⟨recsig.compact.val.take 32, recsig.compact.val.drop 32, UInt8.ofNat recsig.recid.val⟩

end KeyPair

/-- The recovery id `recoverAddress` reads from `sig.v`. -/
def recoveryId (v : UInt8) (chainId : UInt64) : Result ℕ :=
  if v = 0 ∨ v = 1 then .ok v.toNat
  else
    let vFull := v.toUInt64
    -- 27 and 28 of the form before EIP-155 end here.
    if vFull < 35 then runtimeError "recoverAddress: unsupported v"
    else
      let cid := (vFull - 35) / 2
      if cid ≠ chainId then runtimeError "recoverAddress: chainId mismatch"
      else .ok (vFull - (35 + 2 * chainId)).toNat

/-- `Keys::recoverAddress`. -/
def recoverAddress (S : Secp256k1) (msgHash : Bytes32) (sig : Signature) (chainId : UInt64) :
    Result Address := do
  let recId ← recoveryId sig.v chainId
  if h : sig.r.length = 32 ∧ sig.s.length = 32 then
    match S.parseCompact ⟨sig.r ++ sig.s, by simp [h]⟩ recId with
    | none => runtimeError "recoverAddress: parse_compact failed"
    | some recSig =>
      match S.recover recSig msgHash with
      | none => runtimeError "recoverAddress: recover failed"
      | some pub => Address.fromBytes (Address.lastBytes (keccak256 pub.val))
  else runtimeError "recoverAddress: invalid r/s size"

namespace KeyPair

variable {S : Secp256k1} (k : KeyPair S)

theorem address_eq : k.address = .ok (addressOf k.pub) := Address.fromPublicKey_eq k.pub

/-- A key pair that signs has a public key. -/
theorem pubkeyCreate_of_sign (hS : S.Sound) {h : Bytes32} {recsig : RecoverableSignature}
    (hsign : S.signRecoverable h k.priv = some recsig) : S.pubkeyCreate k.priv = some k.pub := by
  rcases k.derived with hzero | hpub
  -- A default-constructed pair holds no usable secret key.
  · rw [hzero, hS.sign_zeroKey] at hsign
    cases hsign
  · exact hpub

/-- What `sign` returns, when it does. -/
theorem sign_eq_ok {h : Bytes32} {chainId : UInt64} {sig : Signature}
    (hsign : k.sign h chainId = .ok sig) :
    ∃ recsig, S.signRecoverable h k.priv = some recsig ∧
      sig =
        ⟨recsig.compact.val.take 32, recsig.compact.val.drop 32, UInt8.ofNat recsig.recid.val⟩ := by
  unfold sign at hsign
  split at hsign
  · cases hsign
  · next recsig hrec => exact ⟨recsig, hrec, (Except.ok.inj hsign).symm⟩

end KeyPair

/-- The `v` that `recoverAddress` takes for a bare recovery id. -/
theorem bare_iff {v : UInt8} : v = 0 ∨ v = 1 ↔ v.toNat ≤ 1 := by
  simp only [← UInt8.toNat_inj, UInt8.reduceToNat]
  omega

theorem toNat_sub_base {v : UInt8} (hge : ¬ v.toUInt64 < 35) :
    (v.toUInt64 - 35).toNat = v.toNat - 35 := by
  rw [UInt64.toNat_sub_of_le _ _ (UInt64.not_lt.mp hge), UInt8.toNat_toUInt64]
  rfl

/-- The chain id `recoverAddress` reads from the byte is the transaction's exactly when the
byte is one of its two EIP-155 values. -/
theorem byteChainId_eq_iff {v : UInt8} {chainId : UInt64} (hge : ¬ v.toUInt64 < 35) :
    (v.toUInt64 - 35) / 2 = chainId ↔ (v.toNat - 35) / 2 = chainId.toNat := by
  rw [← UInt64.toNat_inj, UInt64.toNat_div, toNat_sub_base hge]
  rfl

/-- An EIP-155 value that fits in the byte gives back the recovery id it was made from. -/
theorem recoveryId_of_fits {v : UInt8} {chainId : UInt64} {i : ℕ} (hi : i ≤ 1)
    (hv : v.toNat = i + 35 + 2 * chainId.toNat) : recoveryId v chainId = .ok i := by
  have hlt : v.toNat < 256 := v.toNat_lt
  have hbare : ¬ (v = 0 ∨ v = 1) := by
    rw [bare_iff]
    omega
  have hge : ¬ v.toUInt64 < 35 := by
    simp only [UInt64.lt_iff_toNat_lt, UInt8.toNat_toUInt64, UInt64.reduceToNat]
    omega
  have hcid : (v.toUInt64 - 35) / 2 = chainId := by
    rw [byteChainId_eq_iff hge]
    omega
  -- The chain id is below 111 here, so the 64-bit base does not wrap.
  have hbase : (35 + 2 * chainId).toNat = 35 + 2 * chainId.toNat := by
    simp only [UInt64.toNat_add, UInt64.toNat_mul, UInt64.reduceToNat]
    omega
  have hrec : (v.toUInt64 - (35 + 2 * chainId)).toNat = i := by
    rw [UInt64.toNat_sub_of_le, UInt8.toNat_toUInt64, hbase]
    · omega
    · rw [UInt64.le_iff_toNat_le, hbase, UInt8.toNat_toUInt64]
      omega
  simp [recoveryId, hbare, hge, hcid, hrec]

/-- An EIP-155 value cut to a low byte of 0 or 1 is taken for the other recovery id:
`35 + 2 * chainId` is odd, so the byte has the opposite parity. -/
theorem recoveryId_of_truncated_bare {v : UInt8} {chainId : UInt64} {i : ℕ} (hi : i ≤ 1)
    (hv : v.toNat = (i + 35 + 2 * chainId.toNat) % 256) (hbare : v.toNat ≤ 1) :
    recoveryId v chainId = .ok (1 - i) := by
  have hv01 : v = 0 ∨ v = 1 := bare_iff.mpr hbare
  -- 256 is even, so the cut keeps the parity of `i + 35`.
  have hbit : v.toNat = 1 - i := by omega
  simp [recoveryId, hv01, hbit]

/-- Cut to any other low byte it is rejected: the byte does not stand for the chain id. -/
theorem recoveryId_of_truncated {v : UInt8} {chainId : UInt64} {i : ℕ} (hi : i ≤ 1)
    (hbig : 256 ≤ i + 35 + 2 * chainId.toNat)
    (hv : v.toNat = (i + 35 + 2 * chainId.toNat) % 256) (hbare : 1 < v.toNat) :
    ∃ e, recoveryId v chainId = .error e := by
  have hv01 : ¬ (v = 0 ∨ v = 1) := by
    rw [bare_iff]
    omega
  by_cases hge : v.toUInt64 < 35
  · exact ⟨_, by simp [recoveryId, hv01, hge]; rfl⟩
  · -- A byte stands for a chain id below 111, and this one is larger.
    have hcid : (v.toUInt64 - 35) / 2 ≠ chainId := by
      have hlt : v.toNat < 256 := v.toNat_lt
      rw [ne_eq, byteChainId_eq_iff hge]
      omega
    exact ⟨_, by simp [recoveryId, hv01, hge, hcid]; rfl⟩

/-- With `r` and `s` of 32 bytes, recovery is a matter of the library alone. -/
theorem recoverAddress_eq (S : Secp256k1) {h : Bytes32} {sig : Signature} {chainId : UInt64}
    {recId : ℕ} {compact : FixedBytes 64} (hid : recoveryId sig.v chainId = .ok recId)
    (hr : sig.r = compact.val.take 32) (hs : sig.s = compact.val.drop 32) :
    recoverAddress S h sig chainId =
      match S.parseCompact compact recId with
      | none => runtimeError "recoverAddress: parse_compact failed"
      | some recSig =>
        match S.recover recSig h with
        | none => runtimeError "recoverAddress: recover failed"
        | some pub => .ok (addressOf pub) := by
  have hsize : sig.r.length = 32 ∧ sig.s.length = 32 := by
    simp [hr, hs, compact.property]
  have hcompact : (⟨sig.r ++ sig.s, by simp [hsize]⟩ : FixedBytes 64) = compact :=
    Subtype.ext (by simp [hr, hs])
  simp only [recoverAddress, hid, bind, Except.bind, dif_pos hsize, hcompact,
    Address.fromBytes_lastBytes_keccak256]

theorem recoverAddress_of_recover (S : Secp256k1) {h : Bytes32} {sig : Signature}
    {chainId : UInt64} {recId : ℕ} {compact : FixedBytes 64} {recSig : RecoverableSignature}
    {pub : FixedBytes 64} (hid : recoveryId sig.v chainId = .ok recId)
    (hr : sig.r = compact.val.take 32) (hs : sig.s = compact.val.drop 32)
    (hparse : S.parseCompact compact recId = some recSig) (hrec : S.recover recSig h = some pub) :
    recoverAddress S h sig chainId = .ok (addressOf pub) := by
  rw [recoverAddress_eq S hid hr hs]
  simp only [hparse, hrec]

/-- Recovery from a fresh signature, under the recovery id it was made with, gives the
signer's address. -/
theorem recoverAddress_sign {S : Secp256k1} (hS : S.Sound) (k : KeyPair S) {h : Bytes32}
    {recsig : RecoverableSignature} {sig : Signature} {chainId : UInt64}
    (hsign : S.signRecoverable h k.priv = some recsig)
    (hid : recoveryId sig.v chainId = .ok recsig.recid.val)
    (hr : sig.r = recsig.compact.val.take 32) (hs : sig.s = recsig.compact.val.drop 32) :
    recoverAddress S h sig chainId = .ok (addressOf k.pub) := by
  obtain ⟨sig', hparse, hrec⟩ := hS.recover_sign hsign (k.pubkeyCreate_of_sign hS hsign)
  exact recoverAddress_of_recover S hid hr hs hparse hrec

/-- Under ideal signatures, recovery for a hash gives the signer's address exactly when the hash is
the signed one. -/
theorem recoverAddress_sign_iff {S : Secp256k1} (hS : S.Ideal) (k : KeyPair S) {h h' : Bytes32}
    {recsig : RecoverableSignature} {sig : Signature} {chainId : UInt64}
    (hsign : S.signRecoverable h k.priv = some recsig)
    (hid : recoveryId sig.v chainId = .ok recsig.recid.val)
    (hr : sig.r = recsig.compact.val.take 32) (hs : sig.s = recsig.compact.val.drop 32) :
    recoverAddress S h' sig chainId = .ok (addressOf k.pub) ↔ h' = h := by
  constructor
  · intro hrec
    have hpub := k.pubkeyCreate_of_sign hS.toSound hsign
    obtain ⟨sig', hparse, -⟩ := hS.recover_sign hsign hpub
    rw [recoverAddress_eq S hid hr hs, hparse] at hrec
    dsimp only at hrec
    split at hrec
    · cases hrec
    · next pub' hpub' =>
      exact hS.hash_eq_of_recover hsign hpub hparse hpub' (Except.ok.inj hrec)
  · rintro rfl
    exact recoverAddress_sign hS.toSound k hsign hid hr hs

/-- Recovery under the other recovery id gives the address of the flipped key, if there is
one. -/
theorem recoverAddress_flipped_iff {S : Secp256k1} {h sk : Bytes32}
    {recsig : RecoverableSignature} {sig : Signature} {chainId : UInt64} {a : Address}
    (hsign : S.signRecoverable h sk = some recsig)
    (hid : recoveryId sig.v chainId = .ok (1 - recsig.recid.val))
    (hr : sig.r = recsig.compact.val.take 32) (hs : sig.s = recsig.compact.val.drop 32) :
    recoverAddress S h sig chainId = .ok a ↔
      ∃ pub, S.flippedKey h sk = some pub ∧ addressOf pub = a := by
  rw [recoverAddress_eq S hid hr hs]
  cases hparse : S.parseCompact recsig.compact (1 - recsig.recid.val) with
  | none => simp [Secp256k1.flippedKey, hsign, hparse, runtimeError]
  | some sig' =>
    cases hpub : S.recover sig' h with
    | none => simp [Secp256k1.flippedKey, hsign, hparse, hpub, runtimeError]
    | some pub => simp [Secp256k1.flippedKey, hsign, hparse, hpub]

/-! ### The development key -/

/-- The secret key `main.cpp` starts the node with. -/
def devPriv : Bytes32 :=
  ⟨[172, 9, 116, 190, 195, 154, 23, 227, 107, 164, 166, 180, 210, 56, 255, 148, 75, 172, 180,
    120, 203, 237, 94, 252, 174, 120, 77, 123, 244, 242, 255, 128], rfl⟩

/-- Its public key. -/
def devPub : FixedBytes 64 :=
  ⟨[131, 24, 83, 91, 84, 16, 93, 74, 122, 174, 96, 192, 143, 196, 95, 150, 135, 24, 27, 79, 223,
    198, 37, 189, 26, 117, 63, 167, 57, 127, 237, 117, 53, 71, 241, 28, 168, 105, 102, 70, 242,
    243, 172, 176, 142, 49, 1, 106, 250, 194, 62, 99, 12, 93, 17, 245, 159, 97, 254, 245, 123,
    13, 42, 165], rfl⟩

/-- Its address. -/
def devAddress : Address := addressOf devPub

theorem bytes_devAddress :
    devAddress.bytes = [243, 159, 214, 229, 26, 173, 136, 246, 244, 206, 106, 184, 130,
      114, 121, 207, 255, 185, 34, 102] := by
  show Address.lastBytes (keccak256 devPub.val) = _
  rw [keccak256_eq_eval]
  decide +kernel

/-- The library restricted to one signature of the development key: it signs with `sig`,
which recovers to `devPub`, and under the other recovery id to `other`. -/
def devSecp (sig : RecoverableSignature) (other : FixedBytes 64) : Secp256k1 where
  seckeyVerify sk := sk == devPriv
  pubkeyCreate sk := if sk = devPriv then some devPub else none
  signRecoverable _ sk := if sk = devPriv then some sig else none
  parseCompact compact recid :=
    if h : compact = sig.compact ∧ recid < 4 then some ⟨compact, recid, h.2⟩ else none
  recover sig' _ :=
    if sig' = sig then some devPub
    else if sig' = ⟨sig.compact, Fin.ofNat 4 (1 - sig.recid.val)⟩ then some other else none

section DevSecp

variable {sig : RecoverableSignature} {other : FixedBytes 64}

theorem devSecp_sound : (devSecp sig other).Sound where
  sign_zeroKey _ := by simp [devSecp, show zeroKey ≠ devPriv by decide]
  recover_sign := by
    intro h sk sig' pub hsign hpub
    simp only [devSecp, Option.ite_none_right_eq_some, Option.some.injEq] at hsign hpub
    obtain ⟨-, rfl⟩ := hsign
    obtain ⟨-, rfl⟩ := hpub
    exact ⟨sig, by simp [devSecp], by simp [devSecp]⟩

/-- The development key pair. -/
def devKeyPair (sig : RecoverableSignature) (other : FixedBytes 64) : KeyPair (devSecp sig other) :=
  ⟨devPriv, devPub, .inr (by simp [devSecp])⟩

end DevSecp

end Gambit
