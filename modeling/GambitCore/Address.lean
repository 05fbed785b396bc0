import GambitCore.Hash.Keccak

/-!
# Addresses

`Address` of `address.cpp`: twenty bytes, read from bytes, hexadecimal text or a public
key, and printed plain or with the case checksum of EIP-55. The plain text form is the
key under which the ledger stores an account.

## Main results

* `fromHex_toHex_false` — the plain text form reads back to the address
* `toHex_false_injective` — distinct addresses never share an account key
* `fromHex_toHexWith` — both text forms read back to the address, whatever hash chooses the case
-/

namespace Gambit

/-- `Address`. -/
@[ext]
structure Address where
  bytes : Bytes
  length_bytes : bytes.length = 20
  deriving DecidableEq

namespace Address

/-- `kSize`. -/
def kSize : ℕ := 20

/-- `Address()`: all zeros. -/
def zero : Address := ⟨List.replicate 20 0, rfl⟩

instance : Inhabited Address := ⟨zero⟩

/-- `Address::fromBytes`. -/
def fromBytes (bytes : Bytes) : Result Address :=
  if h : bytes.length = 20 then .ok ⟨bytes, h⟩
  else runtimeError "Address::fromBytes: must be 20 bytes"

/-- `Address::fromHex`. -/
def fromHex (hex : Str) : Result Address := do
  let raw ← Gambit.fromHex hex
  fromBytes raw

/-- The last `kSize` bytes of a hash. -/
def lastBytes (hash : Bytes) : Bytes := hash.drop (hash.length - kSize)

/-- `Address::fromPublicKey`: 64 bytes, or 65 with the `0x04` of the uncompressed form. -/
def fromPublicKey (pubKey : Bytes) : Result Address :=
  let key := if pubKey.length = 65 ∧ pubKey.head? = some 0x04 then pubKey.tail else pubKey
  if key.length ≠ 64 then
    runtimeError "Address::fromPublicKey: expected 64-byte uncompressed key"
  else
    let hash := keccak256 key
    if hash.length < kSize then runtimeError "Address::fromPublicKey: hash too short"
    else fromBytes (lastBytes hash)

/-- One character of the checksum form: a letter is raised when the hash digit is 8 or
more. -/
def checksumChar (c h : UInt8) : UInt8 :=
  if 48 ≤ c ∧ c ≤ 57 then c
  else
    let nibble := if 48 ≤ h ∧ h ≤ 57 then h - 48 else 10 + (h - 97)
    if nibble ≥ 8 then c - 32 else c

/-- `Address::toChecksumHex`. -/
def toChecksumHex (raw : Bytes) : Str :=
  let hex := Gambit.toHex raw
  let hashHex := Gambit.toHex (keccak256 hex)
  str "0x" ++ List.zipWith checksumChar hex hashHex

/-- `Address::toHex`. -/
def toHex (a : Address) (checksum : Bool) : Str :=
  if !checksum then str "0x" ++ Gambit.toHex a.bytes else toChecksumHex a.bytes

/-- `Address::isZero`. -/
def isZero (a : Address) : Bool := a.bytes.all (· == 0)

theorem isZero_iff {a : Address} : a.isZero = true ↔ a = zero := by
  constructor
  · intro h
    have hbytes : ∀ b ∈ a.bytes, b = 0 := by simpa [isZero] using h
    exact Address.ext (List.eq_replicate_iff.mpr ⟨a.length_bytes, hbytes⟩)
  · rintro rfl
    decide

theorem fromBytes_bytes (a : Address) : fromBytes a.bytes = .ok a := by
  simp [fromBytes, a.length_bytes]

/-- The plain text form reads back to the address. -/
theorem fromHex_toHex_false (a : Address) : fromHex (a.toHex false) = .ok a := by
  simp [fromHex, toHex, fromHex_prefixed_toHex, bind, Except.bind, fromBytes_bytes]

/-- Distinct addresses never share an account key. -/
theorem toHex_false_injective : Function.Injective fun a : Address => a.toHex false := by
  intro a b h
  have hb := fromHex_toHex_false b
  rw [← show a.toHex false = b.toHex false from h, fromHex_toHex_false a] at hb
  exact Except.ok.inj hb

/-! ### The checksum form over any hash -/

/-- `toChecksumHex` with the hash function as a parameter. -/
def toChecksumHexWith (hash : Bytes → Bytes32) (raw : Bytes) : Str :=
  let hex := Gambit.toHex raw
  let hashHex := Gambit.toHex (hash hex).val
  str "0x" ++ List.zipWith checksumChar hex hashHex

/-- `toHex` with the hash function as a parameter. -/
def toHexWith (hash : Bytes → Bytes32) (a : Address) (checksum : Bool) : Str :=
  if !checksum then str "0x" ++ Gambit.toHex a.bytes else toChecksumHexWith hash a.bytes

theorem toHexWith_keccak256_32 (a : Address) (checksum : Bool) :
    a.toHexWith keccak256_32 checksum = a.toHex checksum := rfl

/-- A character keeps its digit in the checksum form; only its case may change. -/
theorem toLower_checksumChar {c : UInt8} (hdigit : Codec.isDigit 16 c) (hlower : toLower c = c)
    (h : UInt8) : Codec.isDigit 16 (checksumChar c h) ∧ toLower (checksumChar c h) = c := by
  have hraised : ∀ c : UInt8, Codec.isDigit 16 c → toLower c = c → ¬ (48 ≤ c ∧ c ≤ 57) →
      Codec.isDigit 16 (c - 32) ∧ toLower (c - 32) = c := Codec.forall_byte (by decide +kernel)
  unfold checksumChar
  split
  · exact ⟨hdigit, hlower⟩
  · next hletter =>
    dsimp only
    generalize (if 48 ≤ h ∧ h ≤ 57 then h - 48 else 10 + (h - 97)) = nibble
    split
    · exact hraised c hdigit hlower hletter
    · exact ⟨hdigit, hlower⟩

theorem zipWith_checksumChar {hex hashHex : Str} (hlen : hex.length ≤ hashHex.length)
    (hdigit : ∀ c ∈ hex, Codec.isDigit 16 c) (hlower : hex.map toLower = hex) :
    (∀ c ∈ List.zipWith checksumChar hex hashHex, Codec.isDigit 16 c) ∧
      (List.zipWith checksumChar hex hashHex).map toLower = hex := by
  induction hex generalizing hashHex with
  | nil => simp
  | cons c hex ih =>
    cases hashHex with
    | nil => simp at hlen
    | cons h hashHex =>
      simp only [List.map_cons, List.cons.injEq] at hlower
      rw [List.forall_mem_cons] at hdigit
      obtain ⟨hc, hc'⟩ := toLower_checksumChar hdigit.1 hlower.1 h
      obtain ⟨hall, hmap⟩ := ih (Nat.le_of_succ_le_succ hlen) hdigit.2 hlower.2
      simp only [List.zipWith_cons_cons, List.forall_mem_cons, List.map_cons, hc', hmap, and_true]
      exact ⟨hc, hall⟩

/-- The checksum form is a hexadecimal text whose digits print the bytes. -/
theorem fromHex_toChecksumHexWith (hash : Bytes → Bytes32) {raw : Bytes} (hraw : raw.length = 20) :
    Gambit.fromHex (toChecksumHexWith hash raw) = .ok raw := by
  have hhash : (hash (Gambit.toHex raw)).val.length = 32 := (hash (Gambit.toHex raw)).property
  have hlen : (Gambit.toHex raw).length ≤ (Gambit.toHex (hash (Gambit.toHex raw)).val).length := by
    rw [length_toHex, length_toHex, hhash, hraw]
    decide
  obtain ⟨hdigit, hlower⟩ :=
    zipWith_checksumChar hlen (isHexText_toHex raw).isDigit (map_toLower_toHex raw)
  have htext : IsHexText (toChecksumHexWith hash raw) _ :=
    ⟨.inr (.inl rfl), by rw [List.length_zipWith, Nat.min_eq_left hlen]; simp, hdigit⟩
  exact htext.fromHex_eq_ok_iff.mpr hlower.symm

/-- Both text forms read back to the address. -/
theorem fromHex_toHexWith (hash : Bytes → Bytes32) (a : Address) (checksum : Bool) :
    fromHex (a.toHexWith hash checksum) = .ok a := by
  cases checksum with
  | false => exact fromHex_toHex_false a
  | true =>
    rw [toHexWith, fromHex]
    simp [fromHex_toChecksumHexWith hash a.length_bytes, bind, Except.bind, fromBytes_bytes]

end Address

/-- The address of a public key: the last bytes of its hash. -/
def addressOf (pub : FixedBytes 64) : Address :=
  ⟨Address.lastBytes (keccak256 pub.val), by simp [Address.lastBytes, Address.kSize]⟩

theorem Address.fromBytes_lastBytes_keccak256 (pub : FixedBytes 64) :
    Address.fromBytes (Address.lastBytes (keccak256 pub.val)) = .ok (addressOf pub) :=
  Address.fromBytes_bytes (addressOf pub)

/-- A 64-byte key is never mistaken for a prefixed one. -/
theorem Address.fromPublicKey_eq (pub : FixedBytes 64) :
    Address.fromPublicKey pub.val = .ok (addressOf pub) := by
  simp [fromPublicKey, pub.property, kSize, fromBytes_lastBytes_keccak256]

end Gambit
