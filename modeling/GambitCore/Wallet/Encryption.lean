import GambitCore.Wallet.Base64
import Mathlib.Algebra.Order.Ring.Int

/-!
# Encryption of the keystore

`Wallet::encryptAES256GCM` and `decryptAES256GCM`, in the build with OpenSSL and in the one
without, with the `pbkdf2SHA512` of `wallet.cpp` that derives their key. The ciphers are given.

OpenSSL takes lengths as an `int`, and the wallet casts sizes to one; from `2 ^ 31` bytes on the
cast changes them. `EVP_EncryptUpdate` refuses a negative length and the wallet throws.
`PKCS5_PBKDF2_HMAC` fails on one as well, but nobody looks: the key is then whatever was in the
buffer it should have been written to. That is an argument here, and two calls need not find the
same bytes.

## Main definitions

* `CryptoLibrary`, `CryptoLibrary.Sound` — the library and what is assumed of it
* `pbkdf2SHA512`, `deriveKeysFromPassword`
* `encryptAES256GCM`, `decryptAES256GCM`, `roundTrip`

## Main results

* `pbkdf2SHA512_of_fits` — where the derivation does not fail, the buffer does not matter
* `roundTrip_openssl` — what is decrypted is the part of the plaintext the library was given
* `roundTrip_iff` — that is the plaintext, whatever the buffers hold, exactly when it is shorter
  than `2 ^ 31` bytes and the password can be read
-/

namespace Gambit.Wallet

/-! ### The library -/

/-- The functions of the libraries. -/
structure CryptoLibrary where
  /-- PBKDF2 with HMAC-SHA512, on the bytes of a password, those of a salt and a number of
  iterations. -/
  pbkdf2 : Bytes → Bytes → ℕ → FixedBytes 64
  /-- `std::hash<std::string>`, in the build without OpenSSL. -/
  stdHash : Str → UInt64
  /-- AES-256-GCM under a key and an IV: the ciphertext and the tag. -/
  encrypt : Bytes32 → FixedBytes 12 → Bytes → Bytes × FixedBytes 16
  /-- The plaintext, if the tag is right. -/
  decrypt : Bytes32 → FixedBytes 12 → Bytes → FixedBytes 16 → Option Bytes

/-- The ciphertext is as long as the plaintext, and is decrypted under the same key, IV and tag. -/
structure CryptoLibrary.Sound (L : CryptoLibrary) : Prop where
  length_encrypt : ∀ key iv p, (L.encrypt key iv p).1.length = p.length
  decrypt_encrypt : ∀ key iv p,
    L.decrypt key iv (L.encrypt key iv p).1 (L.encrypt key iv p).2 = some p

/-- `(int)n` for a size. -/
def toInt32 (n : ℕ) : ℤ := if n % 2 ^ 32 < 2 ^ 31 then n % 2 ^ 32 else n % 2 ^ 32 - 2 ^ 32

/-- What OpenSSL reads of a buffer for a given length. A negative one is refused. -/
def readInput (buffer : Bytes) (len : ℤ) : Option Bytes :=
  if len < 0 then none else some (buffer.take len.toNat)

/-- What it reads of a buffer whose size is cast to `int`. -/
def castInput (buffer : Bytes) : Option Bytes := readInput buffer (toInt32 buffer.length)

/-- `strlen(s.c_str())`. -/
def strlen (s : Str) : ℕ := (s.takeWhile (· ≠ 0)).length

/-- What `PKCS5_PBKDF2_HMAC` reads of a password whose size is cast to `int`. -/
def passwordInput (password : Str) : Option Bytes :=
  -- The length -1 stands for a string that ends at its first zero byte.
  if toInt32 password.length = -1 then readInput password (toInt32 (strlen password))
  else castInput password

/-! ### The wallet -/

/-- With or without `GAMBIT_HAVE_OPENSSL`. -/
inductive Build
  | openssl
  | fallback

/-- The eight bytes of a word in memory. -/
def wordBytes (v : UInt64) : Bytes :=
  (List.range 8).map fun i => (v >>> UInt64.ofNat (8 * i)).toUInt8

section

variable (L : CryptoLibrary) (build : Build)

/-- `pbkdf2SHA512`. `key` is what the local buffer of that name holds before the call; a failure of
OpenSSL is ignored, and the buffer returned. -/
def pbkdf2SHA512 (key : FixedBytes 64) (password salt : Str) (iterations : ℕ) : FixedBytes 64 :=
  match build with
  | .openssl =>
    match passwordInput password, castInput salt with
    | some pass, some salt => L.pbkdf2 pass salt iterations
    | _, _ => key
  | .fallback =>
    let cur := (fun cur => wordBytes (L.stdHash cur))^[iterations] (password ++ salt)
    ⟨(List.range 64).map fun i => cur.getD (i % cur.length) 0, by simp⟩

/-- `deriveKeysFromPassword`: the key, and bytes that are not used. -/
def deriveKeysFromPassword (salt : Str) (key : FixedBytes 64) (password : Str) : Bytes32 × Bytes :=
  let keyMaterial := pbkdf2SHA512 L build key password salt 100000
  (⟨keyMaterial.val.take 32, by rw [List.length_take, keyMaterial.property]; rfl⟩,
    keyMaterial.val.drop 32)

/-- `encryptAES256GCM` with a random IV. -/
def encryptAES256GCM (salt : Str) (iv : FixedBytes 12) (key : FixedBytes 64)
    (plaintext password : Str) : Result Str :=
  match build with
  | .openssl =>
    match castInput plaintext with
    | none => runtimeError "Failed to encrypt data"
    | some input =>
      let (ciphertext, tag) :=
        L.encrypt (deriveKeysFromPassword L .openssl salt key password).1 iv input
      .ok (base64Encode (iv.val ++ ciphertext ++ tag.val))
  | .fallback => .ok (base64Encode (iv.val ++ plaintext))

/-- `decryptAES256GCM`. -/
def decryptAES256GCM (salt : Str) (key : FixedBytes 64) (ciphertextB64 password : Str) :
    Result Str :=
  let result := base64Decode ciphertextB64
  match build with
  | .openssl =>
    if h : 28 ≤ result.length then
      let iv : FixedBytes 12 := ⟨result.take 12, by rw [List.length_take]; omega⟩
      let tag : FixedBytes 16 :=
        ⟨result.drop (result.length - 16), by rw [List.length_drop]; omega⟩
      match castInput ((result.take (result.length - 16)).drop 12) with
      | none => runtimeError "Failed to decrypt data"
      | some input =>
        match L.decrypt (deriveKeysFromPassword L .openssl salt key password).1 iv input tag with
        | none => runtimeError "GCM tag verification failed - wrong password?"
        | some plaintext => .ok plaintext
    -- The ranges of the three vectors are not inside the result.
    else .error .badRange
  | .fallback => if result.length ≤ 12 then .ok [] else .ok (result.drop 12)

/-- Encryption and then decryption under the same password, each with what its own buffer holds. -/
def roundTrip (salt : Str) (iv : FixedBytes 12) (keys : FixedBytes 64 × FixedBytes 64)
    (plaintext password : Str) : Result Str := do
  let text ← encryptAES256GCM L build salt iv keys.1 plaintext password
  decryptAES256GCM L build salt keys.2 text password

end

/-! ### Lengths -/

theorem toInt32_of_lt {n : ℕ} (h : n < 2 ^ 31) : toInt32 n = n := by
  unfold toInt32
  rw [Nat.mod_eq_of_lt (by omega), if_pos h]
  omega

theorem castInput_of_lt {buffer : Bytes} (h : buffer.length < 2 ^ 31) :
    castInput buffer = some buffer := by
  rw [castInput, toInt32_of_lt h, readInput, if_neg (by omega), Int.toNat_natCast, List.take_length]

/-- Whatever is read is shorter than `2 ^ 31` bytes. -/
theorem length_castInput {buffer input : Bytes} (h : castInput buffer = some input) :
    input.length < 2 ^ 31 := by
  unfold castInput readInput at h
  split at h
  · cases h
  · obtain rfl := Option.some.inj h
    have hle := List.length_take_le (toInt32 buffer.length).toNat buffer
    have hlt : (toInt32 buffer.length).toNat < 2 ^ 31 := by
      unfold toInt32
      split <;> omega
    omega

theorem castInput_eq_some_self_iff (buffer : Bytes) :
    castInput buffer = some buffer ↔ buffer.length < 2 ^ 31 :=
  ⟨length_castInput, castInput_of_lt⟩

theorem passwordInput_of_lt {password : Str} (h : password.length < 2 ^ 31) :
    passwordInput password = some password := by
  rw [passwordInput, if_neg (by rw [toInt32_of_lt h]; omega), castInput_of_lt h]

/-- Where the derivation does not fail, it does not matter what the buffer held. -/
theorem pbkdf2SHA512_of_fits {L : CryptoLibrary} {build : Build} {password salt : Str}
    (hpassword : build = .openssl → (passwordInput password).isSome)
    (hsalt : salt.length < 2 ^ 31) (key key' : FixedBytes 64) (iterations : ℕ) :
    pbkdf2SHA512 L build key password salt iterations =
      pbkdf2SHA512 L build key' password salt iterations := by
  cases build with
  | fallback => rfl
  | openssl =>
    obtain ⟨pass, hpass⟩ := Option.isSome_iff_exists.mp (hpassword rfl)
    simp only [pbkdf2SHA512, hpass, castInput_of_lt hsalt]

/-- Where it fails on the password, the buffer is the key. -/
theorem pbkdf2SHA512_of_fails {L : CryptoLibrary} {password : Str}
    (h : passwordInput password = none) (key : FixedBytes 64) (salt : Str) (iterations : ℕ) :
    pbkdf2SHA512 L .openssl key password salt iterations = key := by
  simp only [pbkdf2SHA512, h]

/-! ### Round trips -/

section

variable {L : CryptoLibrary} {salt : Str} (iv : FixedBytes 12) (plaintext : Str) {password : Str}

/-- Without OpenSSL everything comes back. -/
theorem roundTrip_fallback (keys : FixedBytes 64 × FixedBytes 64) :
    roundTrip L .fallback salt iv keys plaintext password = .ok plaintext := by
  simp only [roundTrip, encryptAES256GCM, bind, Except.bind, decryptAES256GCM,
    base64Decode_base64Encode, List.length_append, iv.property]
  split
  · next h =>
    have hnil : plaintext = [] := List.length_eq_zero_iff.mp (by omega)
    rw [hnil]
  · rw [List.drop_left' iv.property]

/-- The three parts of a payload are found again at its two ends. -/
theorem decryptAES256GCM_openssl {ciphertext input : Bytes} (tag : FixedBytes 16)
    (key : FixedBytes 64) (hinput : castInput ciphertext = some input) :
    decryptAES256GCM L .openssl salt key (base64Encode (iv.val ++ ciphertext ++ tag.val)) password =
      match L.decrypt (deriveKeysFromPassword L .openssl salt key password).1 iv input tag with
      | none => runtimeError "GCM tag verification failed - wrong password?"
      | some plaintext => .ok plaintext := by
  have hiv := iv.property
  have htag := tag.property
  have hlen : (iv.val ++ ciphertext ++ tag.val).length = 28 + ciphertext.length := by
    simp only [List.length_append, hiv, htag]
    omega
  have hfront : (iv.val ++ ciphertext ++ tag.val).length - 16 = (iv.val ++ ciphertext).length := by
    rw [hlen, List.length_append, hiv]
    omega
  have htake : (iv.val ++ ciphertext ++ tag.val).take 12 = iv.val := by
    rw [List.append_assoc, List.take_left' hiv]
  have hmiddle : (iv.val ++ ciphertext).drop 12 = ciphertext := List.drop_left' hiv
  simp only [decryptAES256GCM, base64Decode_base64Encode]
  rw [dif_pos (by omega)]
  simp only [hfront, htake, List.take_left, List.drop_left, hmiddle, hinput, Subtype.coe_eta]

/-- With OpenSSL what the library was given is decrypted with the key of the second call. -/
theorem roundTrip_openssl_eq (hL : L.Sound) (keys : FixedBytes 64 × FixedBytes 64) {input : Bytes}
    (hinput : castInput plaintext = some input) :
    let sealed := L.encrypt (deriveKeysFromPassword L .openssl salt keys.1 password).1 iv input
    roundTrip L .openssl salt iv keys plaintext password =
      match L.decrypt (deriveKeysFromPassword L .openssl salt keys.2 password).1 iv sealed.1
        sealed.2 with
      | none => runtimeError "GCM tag verification failed - wrong password?"
      | some plaintext => .ok plaintext := by
  -- The ciphertext is as short as what was read, so the second cast does not change its length.
  have hcipher (key : Bytes32) :
      castInput (L.encrypt key iv input).1 = some (L.encrypt key iv input).1 :=
    castInput_of_lt (by rw [hL.length_encrypt]; exact length_castInput hinput)
  simp only [roundTrip, encryptAES256GCM, hinput, bind, Except.bind,
    decryptAES256GCM_openssl iv _ keys.2 (hcipher _)]

/-- A plaintext that cannot be read is refused. -/
theorem roundTrip_openssl_none (keys : FixedBytes 64 × FixedBytes 64)
    (hinput : castInput plaintext = none) :
    roundTrip L .openssl salt iv keys plaintext password =
      runtimeError "Failed to encrypt data" := by
  simp only [roundTrip, encryptAES256GCM, hinput, bind, Except.bind, runtimeError]

/-- Under a password that can be read, what comes back is what the library was given. -/
theorem roundTrip_openssl (hL : L.Sound) (hsalt : salt.length < 2 ^ 31)
    (hpassword : (passwordInput password).isSome) (keys : FixedBytes 64 × FixedBytes 64) :
    roundTrip L .openssl salt iv keys plaintext password =
      match castInput plaintext with
      | none => runtimeError "Failed to encrypt data"
      | some input => .ok input := by
  cases hinput : castInput plaintext with
  | none => exact roundTrip_openssl_none iv plaintext keys hinput
  | some input =>
    have hkey : deriveKeysFromPassword L .openssl salt keys.2 password =
        deriveKeysFromPassword L .openssl salt keys.1 password := by
      simp only [deriveKeysFromPassword,
        pbkdf2SHA512_of_fits (fun _ => hpassword) hsalt keys.2 keys.1]
    simp only [roundTrip_openssl_eq iv plaintext hL keys hinput, hkey, hL.decrypt_encrypt]

end

/-- A cipher that changes nothing, with a part of the key as its tag. -/
def keyedLibrary : CryptoLibrary where
  pbkdf2 _ _ _ := ⟨List.replicate 64 0, rfl⟩
  stdHash _ := 0
  encrypt key _ p := (p, ⟨key.val.take 16, by rw [List.length_take, key.property]; rfl⟩)
  decrypt key _ c tag := if key.val.take 16 = tag.val then some c else none

theorem keyedLibrary_sound : keyedLibrary.Sound :=
  ⟨fun _ _ _ => rfl, fun _ _ _ => by simp [keyedLibrary]⟩

/-- Under a password that cannot be read, it depends on the buffers whether anything comes back. -/
theorem roundTrip_of_fails {password : Str} (h : passwordInput password = none) (salt : Str)
    (iv : FixedBytes 12) (plaintext : Str) :
    ∃ (L : CryptoLibrary) (keys : FixedBytes 64 × FixedBytes 64), L.Sound ∧
      roundTrip L .openssl salt iv keys plaintext password ≠ .ok plaintext := by
  refine ⟨keyedLibrary, (⟨List.replicate 64 0, rfl⟩, ⟨List.replicate 64 1, rfl⟩),
    keyedLibrary_sound, ?_⟩
  cases hinput : castInput plaintext with
  | none =>
    rw [roundTrip_openssl_none iv plaintext _ hinput]
    exact fun h => by cases h
  | some input =>
    simp only [roundTrip_openssl_eq iv plaintext keyedLibrary_sound _ hinput,
      deriveKeysFromPassword, pbkdf2SHA512_of_fails h]
    exact fun h => by cases h

/-- Base64 and the build without OpenSSL lose nothing. The build with OpenSSL gives the plaintext
back, under a password that can be read, exactly when its length fits an `int`; and under every
library and whatever the buffers hold, exactly when besides that the password can be read. -/
theorem roundTrip_iff (salt : Str) (hsalt : salt.length < 2 ^ 31) (iv : FixedBytes 12)
    (plaintext password : Str) :
    (∀ data, base64Decode (base64Encode data) = data) ∧
    (∀ L keys, roundTrip L .fallback salt iv keys plaintext password = .ok plaintext) ∧
    (∀ L : CryptoLibrary, L.Sound → (passwordInput password).isSome → ∀ keys,
      (roundTrip L .openssl salt iv keys plaintext password = .ok plaintext ↔
        plaintext.length < 2 ^ 31)) ∧
    ((∀ L : CryptoLibrary, L.Sound → ∀ keys,
        roundTrip L .openssl salt iv keys plaintext password = .ok plaintext) ↔
      plaintext.length < 2 ^ 31 ∧ (passwordInput password).isSome) := by
  have hread (L : CryptoLibrary) (hL : L.Sound) (hpassword : (passwordInput password).isSome)
      (keys : FixedBytes 64 × FixedBytes 64) :
      roundTrip L .openssl salt iv keys plaintext password = .ok plaintext ↔
        plaintext.length < 2 ^ 31 := by
    rw [roundTrip_openssl iv plaintext hL hsalt hpassword keys, ← castInput_eq_some_self_iff]
    cases castInput plaintext <;> simp [runtimeError]
  refine ⟨base64Decode_base64Encode, fun L keys => roundTrip_fallback iv plaintext keys, hread,
    fun h => ?_, fun ⟨hshort, hpassword⟩ L hL keys => (hread L hL hpassword keys).mpr hshort⟩
  cases hpassword : passwordInput password with
  | some pass =>
    have hsome : (passwordInput password).isSome := by rw [hpassword]; rfl
    exact ⟨(hread keyedLibrary keyedLibrary_sound hsome (⟨List.replicate 64 0, rfl⟩,
      ⟨List.replicate 64 0, rfl⟩)).mp (h _ keyedLibrary_sound _), rfl⟩
  | none =>
    obtain ⟨L, keys, hL, hlost⟩ := roundTrip_of_fails hpassword salt iv plaintext
    exact absurd (h L hL keys) hlost

/-! ### A sample -/

/-- A phrase that `generateMnemonic` can draw. -/
def samplePhrase : Str :=
  str "adept act acute access admin acquire adds across added abandon ability addition"

theorem length_samplePhrase : samplePhrase.length < 2 ^ 31 := by decide +kernel

def samplePassword : Str := str "correct horse"

def sampleSaltBytes : FixedBytes 16 :=
  ⟨[77, 249, 247, 16, 18, 38, 93, 200, 243, 81, 229, 201, 117, 38, 184, 168], rfl⟩

/-- The text of these bytes. -/
def sampleSalt : Str := str "4df9f71012265dc8f351e5c97526b8a8"

def sampleIv : FixedBytes 12 :=
  ⟨[110, 159, 67, 22, 108, 86, 184, 239, 169, 239, 198, 181], rfl⟩

/-- PBKDF2 of the phrase with the salt `TREZOR`, 2048 iterations. -/
def sampleSeed : FixedBytes 64 :=
  ⟨[12, 69, 79, 190, 206, 247, 232, 180, 34, 82, 1, 242, 114, 100, 55, 99, 89, 169, 245, 6, 189,
    203, 249, 116, 59, 41, 239, 91, 134, 104, 26, 175, 109, 142, 237, 131, 252, 174, 199, 248, 154,
    43, 47, 27, 141, 36, 55, 13, 95, 98, 0, 49, 210, 51, 154, 106, 170, 27, 158, 148, 10, 249, 44,
    60], rfl⟩

/-- PBKDF2 of the password with the sample salt, 100000 iterations. -/
def sampleKeys : FixedBytes 64 :=
  ⟨[153, 28, 114, 213, 34, 107, 27, 108, 94, 37, 154, 212, 158, 169, 228, 125, 246, 182, 181, 72,
    119, 100, 130, 249, 221, 153, 51, 137, 81, 95, 161, 87, 56, 55, 220, 155, 66, 79, 232, 22, 251,
    158, 50, 31, 132, 157, 237, 45, 166, 241, 122, 104, 203, 39, 101, 72, 178, 253, 55, 26, 250,
    145, 68, 205], rfl⟩

/-- The first half of these. -/
def sampleKey : Bytes32 := ⟨sampleKeys.val.take 32, rfl⟩

/-- AES-256-GCM of the phrase under the sample key and IV. -/
def sampleCiphertext : Bytes :=
  [255, 255, 68, 199, 37, 189, 47, 194, 19, 16, 110, 171, 43, 67, 216, 81, 36, 131, 247, 87, 240,
   218, 102, 88, 20, 150, 20, 135, 216, 231, 214, 80, 219, 159, 146, 96, 148, 82, 249, 216, 2, 74,
   29, 68, 17, 58, 34, 215, 186, 220, 2, 94, 172, 238, 115, 30, 48, 152, 148, 149, 38, 191, 153,
   155, 123, 55, 145, 213, 208, 101, 52, 96, 255, 224, 124, 159, 8, 99, 74]

def sampleTag : FixedBytes 16 :=
  ⟨[100, 127, 80, 13, 207, 43, 40, 1, 144, 168, 41, 236, 133, 165, 84, 20], rfl⟩

/-- The values of the real functions for the sample, and something else everywhere else. -/
def sampleLibrary : CryptoLibrary where
  pbkdf2 password salt iterations :=
    if (password, salt, iterations) = (samplePhrase, str "TREZOR", 2048) then sampleSeed
    else if (password, salt, iterations) = (samplePassword, sampleSalt, 100000) then sampleKeys
    else ⟨List.replicate 64 0, rfl⟩
  stdHash _ := 0
  encrypt key iv p :=
    if (key, iv, p) = (sampleKey, sampleIv, samplePhrase) then (sampleCiphertext, sampleTag)
    else (p, ⟨List.replicate 16 0, rfl⟩)
  decrypt key iv c tag :=
    if (key, iv, c, tag) = (sampleKey, sampleIv, sampleCiphertext, sampleTag) then some samplePhrase
    else if tag.val = List.replicate 16 0 then some c
    else none

theorem sampleLibrary_sound : sampleLibrary.Sound := by
  have htag : (⟨List.replicate 16 0, rfl⟩ : FixedBytes 16) ≠ sampleTag := by decide
  refine ⟨fun key iv p => ?_, fun key iv p => ?_⟩
  · unfold sampleLibrary
    dsimp only
    split
    · next h =>
      obtain ⟨-, -, rfl⟩ := h
      decide +kernel
    · rfl
  · unfold sampleLibrary
    dsimp only
    split
    · next h =>
      obtain ⟨rfl, rfl, rfl⟩ := h
      exact if_pos rfl
    · rw [if_neg (fun h => htag (by simp_all)), if_pos rfl]

/-- The phrase is encrypted to the text that the real functions give, and comes back. -/
theorem roundTrip_samplePhrase :
    sampleSalt.length < 2 ^ 31 ∧ sampleLibrary.Sound ∧
      ∀ keys : FixedBytes 64 × FixedBytes 64,
        encryptAES256GCM sampleLibrary .openssl sampleSalt sampleIv keys.1 samplePhrase
            samplePassword =
          .ok (str "bp9DFmxWuO+p78a1//9ExyW9L8ITEG6rK0PYUSSD91fw2mZYFJYUh9jn1lDbn5JglFL5" ++
            str "2AJKHUQROiLXutwCXqzucx4wmJSVJr+Zm3s3kdXQZTRg/+B8nwhjSmR/UA3PKygBkKgp7IWlVBQ=") ∧
        roundTrip sampleLibrary .openssl sampleSalt sampleIv keys samplePhrase samplePassword =
          .ok samplePhrase := by
  have hsalt : sampleSalt.length < 2 ^ 31 := by decide
  have hpassword : samplePassword.length < 2 ^ 31 := by decide
  refine ⟨hsalt, sampleLibrary_sound, fun keys => ⟨?_, ?_⟩⟩
  · have hderived : sampleLibrary.pbkdf2 samplePassword sampleSalt 100000 = sampleKeys := by
      decide +kernel
    have hkey : (deriveKeysFromPassword sampleLibrary .openssl sampleSalt keys.1
        samplePassword).1 = sampleKey := by
      simp only [deriveKeysFromPassword, pbkdf2SHA512, passwordInput_of_lt hpassword,
        castInput_of_lt hsalt, hderived]
      rfl
    have hsealed : sampleLibrary.encrypt sampleKey sampleIv samplePhrase =
        (sampleCiphertext, sampleTag) := by
      simp only [sampleLibrary, if_true]
    simp only [encryptAES256GCM, castInput_of_lt length_samplePhrase, hkey, hsealed]
    decide +kernel
  · have hread : (passwordInput samplePassword).isSome := by
      rw [passwordInput_of_lt hpassword]
      rfl
    exact (roundTrip_iff sampleSalt hsalt sampleIv samplePhrase samplePassword).2.2.2.mpr
      ⟨length_samplePhrase, hread⟩ sampleLibrary sampleLibrary_sound keys

/-- Of `2 ^ 32` bytes nothing is encrypted and nothing comes back, without an error, under any
password that can be read. -/
theorem roundTrip_lost :
    ∃ plaintext : Str, plaintext.length = 2 ^ 32 ∧
      ∀ (L : CryptoLibrary) (salt : Str) (iv : FixedBytes 12)
        (keys : FixedBytes 64 × FixedBytes 64) (password : Str), L.Sound → salt.length < 2 ^ 31 →
        password.length < 2 ^ 31 →
        roundTrip L .openssl salt iv keys plaintext password = .ok [] := by
  refine ⟨List.replicate (2 ^ 32) 0, List.length_replicate,
    fun L salt iv keys password hL hsalt hpassword => ?_⟩
  have hint : toInt32 (2 ^ 32) = 0 := by decide
  have hinput : castInput (List.replicate (2 ^ 32) 0) = some [] := by
    rw [castInput, List.length_replicate, hint]
    rfl
  have hread : (passwordInput password).isSome := by
    rw [passwordInput_of_lt hpassword]
    rfl
  rw [roundTrip_openssl iv _ hL hsalt hread keys, hinput]

end Gambit.Wallet
