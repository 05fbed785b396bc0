import GambitCore.Codec.BigEndian
import GambitCore.Keys
import GambitCore.Wallet.Path

/-!
# Child keys

`Wallet::initializeFromSeed`, `deriveChildKey` and `deriveKeyFromPath`, over a given HMAC-SHA512. In
BIP32 a child key is the left half of the digest plus the parent key, modulo the order of the curve,
and the data of an index that is not hardened begins with the serialised public key. Here the left
half is the child key, and the data of every index contains the private key.

## Main definitions

* `deriveChildKey`, `derivePath`, `deriveKeyFromPath`
* `Bip32.ckdPriv` — the private derivation of BIP32
* `IsBip32Child` — the derivation agrees with it

## Main results

* `isBip32Child_never` — the derivation is never BIP32's in general, and for a hardened index not
  under any HMAC
-/

namespace Gambit.Wallet

open Codec

/-! ### The derivation -/

/-- The two halves of a digest. -/
def halves (digest : FixedBytes 64) : Bytes32 × Bytes32 :=
  (⟨digest.val.take 32, by simp [digest.property]⟩, ⟨digest.val.drop 32, by simp [digest.property]⟩)

/-- The four bytes of an index. -/
def indexBytes (i : UInt32) : Bytes :=
  [((i >>> 24) &&& 0xFF).toUInt8, ((i >>> 16) &&& 0xFF).toUInt8, ((i >>> 8) &&& 0xFF).toUInt8,
    (i &&& 0xFF).toUInt8]

section

variable (hmacSHA512 : Bytes → Bytes → FixedBytes 64)

/-- The data `deriveChildKey` authenticates. -/
def childData (parentKey : Bytes32) (childIndex : UInt32) : Bytes :=
  if childIndex ≥ 0x80000000 then 0x00 :: parentKey.val ++ indexBytes childIndex
  else 0x02 :: parentKey.val ++ indexBytes childIndex

/-- `deriveChildKey`: the child's key and its chain code. -/
def deriveChildKey (parentKey chainCode : Bytes32) (childIndex : UInt32) : Bytes32 × Bytes32 :=
  halves (hmacSHA512 chainCode.val (childData parentKey childIndex))

/-- `initializeFromSeed`: `masterKey_` and `masterChainCode_`. -/
def initializeFromSeed (seed : Bytes) : Bytes32 × Bytes32 :=
  halves (hmacSHA512 (str "Bitcoin seed") seed)

/-- The loop of `deriveKeyFromPath`. -/
def derivePath (master : Bytes32 × Bytes32) (indices : List UInt32) : Bytes32 × Bytes32 :=
  indices.foldl (fun node index => deriveChildKey hmacSHA512 node.1 node.2 index) master

/-- `deriveKeyFromPath`. -/
def deriveKeyFromPath (S : Secp256k1) (master : Bytes32 × Bytes32) (derivationPath : Str) :
    Result (KeyPair S) := do
  let indices ← parseBIP32Path derivationPath
  KeyPair.fromPrivateKey S (derivePath hmacSHA512 master indices).1

end

/-! ### BIP32 -/

namespace Bip32

/-- The order of secp256k1. -/
def order : ℕ := 0xFFFFFFFFFFFFFFFFFFFFFFFFFFFFFFFEBAAEDCE6AF48A03BBFD25E8CD0364141

variable (hmacSHA512 : Bytes → Bytes → FixedBytes 64) (serP : ℕ → FixedBytes 33)

/-- The data BIP32 authenticates, with `serP k` the serialised public key of `k`. -/
def data (k : Bytes32) (i : UInt32) : Bytes :=
  if i ≥ 0x80000000 then 0x00 :: k.val ++ indexBytes i
  else (serP (ofBigEndian k.val)).val ++ indexBytes i

/-- What BIP32 makes of a digest: the child's key as a number, and its chain code. -/
def childOf (k : Bytes32) (digest : FixedBytes 64) : ℕ × Bytes32 :=
  ((ofBigEndian (halves digest).1.val + ofBigEndian k.val) % order, (halves digest).2)

/-- The private derivation of BIP32. -/
def ckdPriv (k c : Bytes32) (i : UInt32) : ℕ × Bytes32 :=
  childOf k (hmacSHA512 c.val (data serP k i))

end Bip32

section

variable (hmacSHA512 : Bytes → Bytes → FixedBytes 64) (serP : ℕ → FixedBytes 33)

/-- A key with its chain code, the key as a number. -/
def asNumber (child : Bytes32 × Bytes32) : ℕ × Bytes32 := (ofBigEndian child.1.val, child.2)

/-- `deriveChildKey` returns the child of BIP32. -/
def IsBip32Child (k c : Bytes32) (i : UInt32) : Prop :=
  asNumber (deriveChildKey hmacSHA512 k c i) = Bip32.ckdPriv hmacSHA512 serP k c i

variable {hmacSHA512 serP}

/-- Adding a number between 0 and the modulus changes every residue. -/
theorem ne_add_mod {x k n : ℕ} (hpos : 0 < k) (hlt : k < n) : x ≠ (x + k) % n := by
  intro h
  have hdiv := Nat.div_add_mod (x + k) n
  rw [← h] at hdiv
  have hmul : n * ((x + k) / n) = k := by omega
  obtain hzero | hone := Nat.eq_zero_or_pos ((x + k) / n)
  · rw [hzero] at hmul
    omega
  · have hle := Nat.le_mul_of_pos_right n hone
    omega

/-- For the same digest the two differ: the parent key is added or not. -/
theorem asNumber_halves_ne {k : Bytes32} (hpos : 0 < ofBigEndian k.val)
    (hlt : ofBigEndian k.val < Bip32.order) (digest : FixedBytes 64) :
    asNumber (halves digest) ≠ Bip32.childOf k digest := by
  intro h
  exact ne_add_mod hpos hlt (Prod.mk.inj h).1

/-- Where the data of the code and those of BIP32 have one digest, the child is not BIP32's. -/
theorem not_isBip32Child_of_eq {k : Bytes32} (hpos : 0 < ofBigEndian k.val)
    (hlt : ofBigEndian k.val < Bip32.order) {c : Bytes32} {i : UInt32}
    (h : hmacSHA512 c.val (childData k i) = hmacSHA512 c.val (Bip32.data serP k i)) :
    ¬ IsBip32Child hmacSHA512 serP k c i := by
  rw [IsBip32Child, deriveChildKey, Bip32.ckdPriv, h]
  exact asNumber_halves_ne hpos hlt _

theorem not_isBip32Child_of_hardened {k : Bytes32} (hpos : 0 < ofBigEndian k.val)
    (hlt : ofBigEndian k.val < Bip32.order) (c : Bytes32) {i : UInt32} (hi : i ≥ 0x80000000) :
    ¬ IsBip32Child hmacSHA512 serP k c i := by
  apply not_isBip32Child_of_eq hpos hlt
  rw [childData, Bip32.data, if_pos hi, if_pos hi]

end

/-- For no key of the curve, chain code and index is the child BIP32's whatever HMAC-SHA512 is, and
for a hardened index it is not BIP32's under any. -/
theorem isBip32Child_never {k : Bytes32} (hpos : 0 < ofBigEndian k.val)
    (hlt : ofBigEndian k.val < Bip32.order) (serP : ℕ → FixedBytes 33) (c : Bytes32) (i : UInt32) :
    (i ≥ 0x80000000 → ∀ hmacSHA512, ¬ IsBip32Child hmacSHA512 serP k c i) ∧
      ¬ ∀ hmacSHA512, IsBip32Child hmacSHA512 serP k c i := by
  refine ⟨fun hi hmacSHA512 => not_isBip32Child_of_hardened hpos hlt c hi, fun hall => ?_⟩
  -- One digest for all data is enough to see that the parent key is not added.
  have hconst := hall fun _ _ => ⟨List.replicate 64 0, rfl⟩
  exact not_isBip32Child_of_eq hpos hlt rfl hconst

/-- The private key 1. -/
def keyOne : Bytes32 := ⟨List.replicate 31 0 ++ [1], rfl⟩

theorem ofBigEndian_keyOne : ofBigEndian keyOne.val = 1 := by decide

/-- The first child of the key 1. -/
theorem isBip32Child_never_first :
    ofBigEndian keyOne.val = 1 ∧ ∃ serP : ℕ → FixedBytes 33,
      ¬ ∀ hmacSHA512, IsBip32Child hmacSHA512 serP keyOne zeroKey 0 := by
  refine ⟨ofBigEndian_keyOne, fun _ => ⟨List.replicate 33 3, rfl⟩, ?_⟩
  refine (isBip32Child_never ?_ ?_ _ zeroKey 0).2
  · rw [ofBigEndian_keyOne]
    decide
  · rw [ofBigEndian_keyOne]
    decide

/-- Whatever HMAC and the public keys are, the first hardened child of the key 1 is not BIP32's. -/
theorem not_isBip32Child_first_hardened :
    ∃ k : Bytes32, ofBigEndian k.val = 1 ∧ ∀ hmacSHA512 serP,
      ¬ IsBip32Child hmacSHA512 serP k zeroKey 0x80000000 := by
  refine ⟨keyOne, ofBigEndian_keyOne, fun hmacSHA512 serP => ?_⟩
  apply not_isBip32Child_of_hardened
  · rw [ofBigEndian_keyOne]
    decide
  · rw [ofBigEndian_keyOne]
    decide
  · decide

end Gambit.Wallet
