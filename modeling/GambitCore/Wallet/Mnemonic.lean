import GambitCore.Codec.NumberText
import GambitCore.Codec.Words
import GambitCore.Wallet.Base64

/-!
# Mnemonic phrases

`Wallet::generateMnemonic` and `Wallet::validateMnemonic`, with SHA-256 as an arbitrary function.
Both follow BIP39, where a phrase of `W` words of eleven bits holds `32 * W / 3` bits of entropy
and behind them the first `W / 3` bits of their hash. The word list here is shorter than the
`2 ^ 11` words that eleven bits can name, and it repeats some; and the validation takes the entropy
of twelve words to be one byte shorter than it is.

## Main definitions

* `bip39Wordlist`, `generateMnemonic`, `validateMnemonic`
* `Bip39.HasChecksum`, `Bip39.indices` — what BIP39 asks for

## Main results

* `validateMnemonic_iff` — what is accepted
* `validates_bip39_iff` — of twelve and twenty-four words only the latter are checked as BIP39 asks
* `words_generateMnemonic` — which words are generated
* `generated_valid_iff` — for which entropies the phrase is accepted
-/

namespace Gambit.Wallet

open Codec

/-- `BIP39_WORDLIST`. -/
def bip39Wordlist : List Str :=
  List.map str [
    "abandon", "ability", "able", "about", "above", "absent", "absorb", "abstract", "abuse",
    "access", "accident", "account", "accuse", "achieve", "acid", "acoustic", "acquire", "across",
    "act", "action", "actor", "acts", "actual", "acuity", "acute", "adapt", "add", "addict",
    "added", "adder", "adding", "addition", "additive", "address", "adds", "adept", "adieu",
    "admin", "admit", "adobe", "adopt", "adorable", "adore", "adorn", "adult", "advance", "advent",
    "adverb", "adverse", "advert", "advice", "advise", "advised", "adviser", "advocate", "aerobic",
    "aero", "affair", "afford", "affrays", "afield", "afire", "aflame", "afloat", "afoot", "afraid",
    "afresh", "afro", "aft", "after", "again", "against", "agape", "agate", "agave", "age", "aged",
    "agent", "ages", "agile", "aging", "agism", "agist", "agitate", "ago", "agonies", "agony",
    "agora", "agree", "agreed", "agreement", "agrees", "agri", "agric", "agricola", "agricole",
    "agriculture", "aground", "ague", "ahead", "ahem", "ahoy", "aid", "aide", "aider", "aides",
    "aids", "ail", "aileron", "ailing", "ailment", "aims", "ain", "air", "airbase", "airbed",
    "airboat", "airborne", "airbrake", "airbrush", "aircraft", "aircrew", "airdock", "airdrop",
    "aired", "airer", "airfare", "airfield", "airflow", "airfoil", "airforce", "airframe",
    "airfreight", "airgap", "airglow", "airgun", "airhead", "airier", "airiest", "airily",
    "airiness", "airing", "airings", "airless", "airlift", "airline", "airliner", "airlines",
    "airlock", "airmail", "airman", "airmen", "airn", "airplane", "airplay", "airport", "airs",
    "airscrew", "airship", "airsick", "airspace", "airspeed", "airstrike", "airstrip", "airtime",
    "airtight", "airway", "airways", "airwoman", "airwomen", "airy", "aisle", "aisle", "aisle",
    "aitch", "aitch", "ait", "aitch", "aits", "aiver", "aizle", "aizle", "aizure", "ajapa", "ajar",
    "ajiva", "ajo", "ajowan", "ajuga", "aka", "akahl", "akahest", "akame", "akamea", "akana",
    "akasa", "akasaka", "akathisia", "akatsuka", "akba", "akebi", "akebia", "akebias", "akebi",
    "akebos", "akee", "akees", "akeela", "akeelah", "akees", "akela", "akele", "akelarre", "akelas",
    "akeles", "akeley", "akeleyine", "akelia", "akeman", "akene", "akenes", "akenia", "akeno",
    "akenos", "akent", "akents", "akenz", "akenza", "akeo", "akeos", "aker", "akera", "akerate",
    "akered", "akeres", "akerfield", "akeries", "akering", "akerley", "akers", "akersh", "akership",
    "akess", "akessay", "akessays", "akessine", "akete", "aketes", "aketon", "aketons", "aketonia",
    "aketonias", "aketre", "aketres", "akeuchle", "akeum", "akeums", "akeva", "akevas", "akeve",
    "akevoe", "akevoes", "akevy", "akewife", "akewives", "akeworth", "akez", "akezia", "akezias",
    "akezie", "akezies", "akfal", "akfals", "akfasha", "akgal", "akgals", "akh", "akhara",
    "akharas", "akhc", "akheem", "akheeme", "akheemed", "akhees", "akheme", "akhemer", "akhemers",
    "akhemo", "akhemos", "akhena", "akhenaten", "akhenes", "akhenesian", "akhenis", "akhenishs",
    "akhenism", "akhenisms", "akhenist", "akhenists", "akhenite", "akhenites", "akhenizah",
    "akhenizahs", "akhenization", "akhenizations", "akhenize", "akhenized", "akhenizer",
    "akhenizers", "akhenizes"]

/-! ### The code -/

section

variable (sha256 : Bytes → Bytes32)

/-- `hash[0]` of a hash of some bytes. -/
def hashByte (bytes : Bytes) : UInt8 := (sha256 bytes).val.getD 0 0

/-- `generateMnemonic` on the random bytes it draws. An index without a word is skipped. -/
def generateMnemonic (entropy : FixedBytes 16) : Str :=
  let checksum := hashByte sha256 entropy.val
  -- The loop from bit 7 to bit 4 appends the upper half of the checksum.
  let bits := bytesBits entropy.val ++ (toBits 8 checksum.toNat).take 4
  let words := (groups 11 12 bits).filterMap fun index => bip39Wordlist[index]?
  [32].intercalate words

/-- The bits of some words. A word stands for its first index in the list. -/
def phraseBits (words : List Str) : List Bool :=
  words.flatMap fun w => toBits 11 (bip39Wordlist.idxOf w)

/-- The first `n` bytes of a bit string. -/
def firstBytes (n : ℕ) (bits : List Bool) : Bytes := (groups 8 n bits).map UInt8.ofNat

/-- The last lines of `validateMnemonic`: the checksum behind the entropy against that of the hash,
both shifted to the upper end of a byte. -/
def checksumMatches (bits : List Bool) (entropyBytes checksumBits : ℕ) : Bool :=
  let calculatedChecksum := hashByte sha256 (firstBytes entropyBytes bits)
  let bitsChecksum := ofBits ((bits.drop (entropyBytes * 8)).take checksumBits)
  UInt8.ofNat (bitsChecksum <<< (8 - checksumBits)) ==
    calculatedChecksum &&& UInt8.ofNat (0xFF <<< (8 - checksumBits))

/-- `validateMnemonic`. -/
def validateMnemonic (mnemonic : Str) : Bool :=
  let words := words isSpace mnemonic
  if words.length ≠ 12 ∧ words.length ≠ 24 then false
  else if ¬ ∀ w ∈ words, w ∈ bip39Wordlist then false
  -- The bytes of entropy are 15 for twelve words and 32 for twenty-four.
  else checksumMatches sha256 (phraseBits words) (words.length * 11 / 8 - 1) (words.length / 3)

/-! ### BIP39 -/

/-- The last `W / 3` bits of a phrase of `W` words are the first ones of the hash of the bits before
them. -/
def Bip39.HasChecksum (words : List Str) : Prop :=
  (phraseBits words).drop (32 * words.length / 3) =
    (bytesBits (sha256 (firstBytes (32 * words.length / 3 / 8) (phraseBits words))).val).take
      (words.length / 3)

/-- The indices of the words for an entropy of 128 bits. -/
def Bip39.indices (entropy : FixedBytes 16) : List ℕ :=
  groups 11 12 (bytesBits entropy.val ++ (bytesBits (sha256 entropy.val).val).take 4)

/-- The `c` bits behind `n` bytes are the first ones of the hash of those bytes. -/
def ChecksumAt (bits : List Bool) (n c : ℕ) : Prop :=
  (bits.drop (n * 8)).take c = (bytesBits (sha256 (firstBytes n bits)).val).take c

end

/-! ### Words and bits -/

theorem isWord_of_mem {w : Str} (hw : w ∈ bip39Wordlist) : w ≠ [] ∧ ∀ c ∈ w, isSpace c = false := by
  -- Evaluates the whole list.
  have hall : ∀ w ∈ bip39Wordlist, w ≠ [] ∧ w.any isSpace = false := by decide +kernel
  simpa using hall w hw

theorem length_phraseBits (ws : List Str) : (phraseBits ws).length = 11 * ws.length :=
  length_flatMap_toBits 11 bip39Wordlist.idxOf ws

@[simp] theorem length_firstBytes (n : ℕ) (bits : List Bool) : (firstBytes n bits).length = n := by
  rw [firstBytes, List.length_map, length_groups]

theorem bytesBits_firstBytes {n : ℕ} {bits : List Bool} (h : n * 8 ≤ bits.length) :
    bytesBits (firstBytes n bits) = bits.take (n * 8) := by
  simp only [bytesBits, firstBytes, List.flatMap_map, toBits_toNat_ofNat]
  exact flatMap_toBits_groups h

/-- The first bits of a hash are in its first byte. -/
theorem take_bytesBits (hash : Bytes32) {c : ℕ} (hc : c ≤ 8) :
    (bytesBits hash.val).take c = (toBits 8 (hash.val.getD 0 0).toNat).take c := by
  obtain ⟨bs, hlen⟩ := hash
  cases bs with
  | nil => cases hlen
  | cons b bs =>
    rw [bytesBits, List.flatMap_cons, List.take_append_of_le_length (by rwa [length_toBits])]
    rfl

/-! ### What is accepted -/

/-- The mask keeps the upper bits. -/
theorem toNat_and_mask (c : ℕ) (b : UInt8) :
    (b &&& UInt8.ofNat (0xFF <<< (8 - c))).toNat = b.toNat / 2 ^ (8 - c) * 2 ^ (8 - c) := by
  apply Nat.eq_of_testBit_eq
  intro i
  have hbyte : 8 ≤ i → b.toNat.testBit i = false := fun hi =>
    Nat.testBit_lt_two_pow (Nat.lt_of_lt_of_le b.toNat_lt (Nat.pow_le_pow_right (by decide) hi))
  rw [UInt8.toNat_and, UInt8.toNat_ofNat', Nat.testBit_and, Nat.testBit_mod_two_pow,
    Nat.testBit_shiftLeft, Nat.testBit_mul_two_pow, Nat.testBit_div_two_pow,
    Nat.testBit_two_pow_sub_one 8]
  by_cases hk : 8 - c ≤ i
  · rw [Nat.sub_add_cancel hk]
    by_cases hi : i < 8
    · have hmask : i - (8 - c) < 8 := by omega
      simp [hk, hi, hmask]
    · simp [hbyte (Nat.le_of_not_lt hi)]
  · simp [hk]

/-- A few bits at the upper end of a byte, compared with the upper bits of another. -/
theorem shifted_eq_iff {bits : List Bool} {c : ℕ} (hlen : bits.length = c) (hc : c ≤ 8)
    (b : UInt8) :
    UInt8.ofNat (ofBits bits <<< (8 - c)) = b &&& UInt8.ofNat (0xFF <<< (8 - c)) ↔
      bits = (toBits 8 b.toNat).take c := by
  have hpow : 2 ^ c * 2 ^ (8 - c) = 256 := by
    rw [← pow_add, Nat.add_sub_cancel' hc]
    rfl
  have hpos : 0 < 2 ^ (8 - c) := Nat.two_pow_pos _
  have hbits : ofBits bits < 2 ^ c := hlen ▸ ofBits_lt bits
  have hshift : ofBits bits * 2 ^ (8 - c) < 2 ^ 8 :=
    calc ofBits bits * 2 ^ (8 - c) < 2 ^ c * 2 ^ (8 - c) := Nat.mul_lt_mul_of_pos_right hbits hpos
      _ = 2 ^ 8 := hpow
  have hupper : b.toNat / 2 ^ (8 - c) < 2 ^ c := by
    rw [Nat.div_lt_iff_lt_mul hpos, hpow]
    exact b.toNat_lt
  rw [← UInt8.toNat_inj, toNat_and_mask, UInt8.toNat_ofNat', Nat.shiftLeft_eq,
    Nat.mod_eq_of_lt hshift, Nat.mul_left_inj hpos.ne', take_toBits hc]
  constructor
  · intro h
    rw [← h, ← hlen, toBits_ofBits]
  · intro h
    rw [h, ofBits_toBits, Nat.mod_eq_of_lt hupper]

section

variable (sha256 : Bytes → Bytes32)

theorem checksumMatches_iff {bits : List Bool} {n c : ℕ} (hc : c ≤ 8)
    (hlen : n * 8 + c ≤ bits.length) :
    checksumMatches sha256 bits n c = true ↔ ChecksumAt sha256 bits n c := by
  have hfield : ((bits.drop (n * 8)).take c).length = c :=
    List.length_take_of_le (by rw [List.length_drop]; omega)
  rw [checksumMatches, beq_iff_eq, shifted_eq_iff hfield hc, ChecksumAt, take_bytesBits _ hc]
  rfl

/-- What is accepted: twelve or twenty-four words of the list with the checksum of the code. -/
theorem validateMnemonic_iff (mnemonic : Str) :
    validateMnemonic sha256 mnemonic = true ↔
      ((words isSpace mnemonic).length = 12 ∨ (words isSpace mnemonic).length = 24) ∧
      (∀ w ∈ words isSpace mnemonic, w ∈ bip39Wordlist) ∧
      ChecksumAt sha256 (phraseBits (words isSpace mnemonic))
        ((words isSpace mnemonic).length * 11 / 8 - 1) ((words isSpace mnemonic).length / 3) := by
  rw [validateMnemonic]
  generalize words isSpace mnemonic = ws
  by_cases hlen : ws.length = 12 ∨ ws.length = 24
  · by_cases hmem : ∀ w ∈ ws, w ∈ bip39Wordlist
    · have hbits := length_phraseBits ws
      rw [if_neg (by omega), if_neg (not_not_intro hmem),
        checksumMatches_iff sha256 (by omega) (by omega)]
      exact ⟨fun h => ⟨hlen, hmem, h⟩, fun h => h.2.2⟩
    · rw [if_neg (by omega), if_pos hmem]
      simp [hmem]
  · rw [if_pos (by omega)]
    simp [hlen]

/-- BIP39 asks for the checksum behind the whole entropy. -/
theorem Bip39.hasChecksum_iff {ws : List Str} (hlen : ws.length = 12 ∨ ws.length = 24) :
    HasChecksum sha256 ws ↔
      ChecksumAt sha256 (phraseBits ws) (4 * (ws.length / 3)) (ws.length / 3) := by
  have hbits := length_phraseBits ws
  have hn : 32 * ws.length / 3 = 4 * (ws.length / 3) * 8 := by omega
  have htail : ((phraseBits ws).drop (4 * (ws.length / 3) * 8)).length ≤ ws.length / 3 := by
    rw [List.length_drop]
    omega
  rw [HasChecksum, hn, ChecksumAt, List.take_of_length_le htail, Nat.mul_div_cancel _ (by decide)]

end

/-- There is a hash with given first bits. -/
theorem exists_hash {bits : List Bool} (hlen : bits.length ≤ 256) :
    ∃ hash : Bytes32, (bytesBits hash.val).take bits.length = bits := by
  have hfill : (bits ++ List.replicate (256 - bits.length) false).length = 32 * 8 := by
    rw [List.length_append, List.length_replicate]
    omega
  refine ⟨⟨firstBytes 32 (bits ++ List.replicate (256 - bits.length) false),
    length_firstBytes _ _⟩, ?_⟩
  rw [bytesBits_firstBytes (Nat.le_of_eq hfill.symm), ← hfill, List.take_length, List.take_left]

theorem ne_map_not {bits : List Bool} (hne : bits ≠ []) : bits ≠ bits.map not := by
  cases bits with
  | nil => exact absurd rfl hne
  | cons b bs => cases b <;> simp

/-- Some hash function has the checksum of twelve words right at byte 15 and wrong at byte 16. -/
theorem exists_sha256 {bits : List Bool} (hlen : bits.length = 132) :
    ∃ sha256, ChecksumAt sha256 bits 15 4 ∧ ¬ ChecksumAt sha256 bits 16 4 := by
  have hfield : ((bits.drop (15 * 8)).take 4).length = 4 :=
    List.length_take_of_le (by rw [List.length_drop]; omega)
  have hlast : (((bits.drop (16 * 8)).take 4).map not).length = 4 := by
    rw [List.length_map, List.length_take_of_le (by rw [List.length_drop]; omega)]
  obtain ⟨right, hright⟩ := exists_hash (show ((bits.drop (15 * 8)).take 4).length ≤ 256 by omega)
  obtain ⟨wrong, hwrong⟩ :=
    exists_hash (show (((bits.drop (16 * 8)).take 4).map not).length ≤ 256 by omega)
  rw [hfield] at hright
  rw [hlast] at hwrong
  -- Fifteen and sixteen bytes are different inputs, so the two hashes can be chosen freely.
  refine ⟨fun bytes => if bytes.length = 15 then right else wrong, ?_, ?_⟩
  · rw [ChecksumAt, length_firstBytes, if_pos rfl, hright]
  · rw [ChecksumAt, length_firstBytes, if_neg (by decide), hwrong]
    apply ne_map_not
    intro hnil
    rw [hnil] at hlast
    cases hlast

/-- Twenty-four words are checked as BIP39 asks, whatever the hash function is; twelve words are
not. -/
theorem validates_bip39_iff {mnemonic : Str}
    (hlen : (words isSpace mnemonic).length = 12 ∨ (words isSpace mnemonic).length = 24)
    (hmem : ∀ w ∈ words isSpace mnemonic, w ∈ bip39Wordlist) :
    (∀ sha256, validateMnemonic sha256 mnemonic = true ↔
      Bip39.HasChecksum sha256 (words isSpace mnemonic)) ↔
      (words isSpace mnemonic).length = 24 := by
  have hbits := length_phraseBits (words isSpace mnemonic)
  simp only [validateMnemonic_iff, Bip39.hasChecksum_iff _ hlen]
  constructor
  · intro hall
    by_contra hne
    have htwelve : (words isSpace mnemonic).length = 12 := by omega
    rw [htwelve] at hall hbits
    obtain ⟨sha256, hright, hwrong⟩ := exists_sha256 hbits
    exact hwrong ((hall sha256).mp ⟨Or.inl rfl, hmem, hright⟩)
  · intro htwentyfour sha256
    rw [htwentyfour]
    exact ⟨fun h => h.2.2, fun h => ⟨Or.inr rfl, hmem, h⟩⟩

/-- A phrase of twenty-four words. -/
theorem validates_bip39_twentyfour :
    ∃ mnemonic : Str, (words isSpace mnemonic).length = 24 ∧
      ∀ sha256, validateMnemonic sha256 mnemonic = true ↔
        Bip39.HasChecksum sha256 (words isSpace mnemonic) := by
  have hwords : words isSpace ([32].intercalate (List.replicate 24 (str "abandon"))) =
      List.replicate 24 (str "abandon") := by
    decide +kernel
  refine ⟨[32].intercalate (List.replicate 24 (str "abandon")), by rw [hwords]; rfl, ?_⟩
  refine (validates_bip39_iff (Or.inr ?_) ?_).mpr ?_
  · rw [hwords]
    rfl
  · rw [hwords]
    decide +kernel
  · rw [hwords]
    rfl

/-- The phrase BIP39 assigns to an entropy of zeros is refused. The two hashes start as those of
SHA-256 on fifteen and on sixteen zeros do. -/
theorem not_validates_bip39_zeros :
    ∃ (sha256 : Bytes → Bytes32) (mnemonic : Str),
      (words isSpace mnemonic).length = 12 ∧ (∀ w ∈ words isSpace mnemonic, w ∈ bip39Wordlist) ∧
      Bip39.HasChecksum sha256 (words isSpace mnemonic) ∧
      validateMnemonic sha256 mnemonic = false := by
  refine ⟨fun bytes => ⟨List.replicate 32 (if bytes.length = 15 then 0x53 else 0x37), rfl⟩,
    [32].intercalate (List.replicate 11 (str "abandon") ++ [str "about"]), ?_, ?_, ?_, ?_⟩
  · decide +kernel
  · decide +kernel
  · unfold Bip39.HasChecksum
    decide +kernel
  · decide +kernel

/-! ### What is generated -/

/-- The first index of the word at an index. -/
def firstIndex (i : ℕ) : ℕ := bip39Wordlist.idxOf (bip39Wordlist.getD i [])

theorem mem_bip39Wordlist_of_mem {indices : List ℕ} {w : Str}
    (h : w ∈ indices.filterMap fun i => bip39Wordlist[i]?) : w ∈ bip39Wordlist := by
  obtain ⟨i, -, hi⟩ := List.mem_filterMap.mp h
  exact List.mem_of_getElem? hi

section

variable (sha256 : Bytes → Bytes32) (entropy : FixedBytes 16)

theorem words_generateMnemonic :
    words isSpace (generateMnemonic sha256 entropy) =
      (Bip39.indices sha256 entropy).filterMap fun i => bip39Wordlist[i]? := by
  rw [Bip39.indices, take_bytesBits _ (by decide)]
  exact words_intercalate (by decide) fun w hw => isWord_of_mem (mem_bip39Wordlist_of_mem hw)

/-- A word for every index. -/
theorem length_words_generateMnemonic_iff :
    (words isSpace (generateMnemonic sha256 entropy)).length = 12 ↔
      ∀ i ∈ Bip39.indices sha256 entropy, i < bip39Wordlist.length := by
  have hlen : (Bip39.indices sha256 entropy).length = 12 := length_groups _ _ _
  rw [words_generateMnemonic, ← hlen, List.filterMap_length_eq_length]
  simp

theorem words_generateMnemonic_of_lt
    (h : ∀ i ∈ Bip39.indices sha256 entropy, i < bip39Wordlist.length) :
    words isSpace (generateMnemonic sha256 entropy) =
      (Bip39.indices sha256 entropy).map fun i => bip39Wordlist.getD i [] := by
  rw [words_generateMnemonic, ← List.filterMap_eq_map]
  refine List.filterMap_congr fun i hi => ?_
  simp [h i hi]

/-- The phrase generated from an entropy has twelve words and is accepted exactly when each index
has a word and, with the first index of each word in its place, the four bits behind fifteen bytes
are the first ones of their hash. -/
theorem generated_valid_iff :
    ((words isSpace (generateMnemonic sha256 entropy)).length = 12 ∧
      validateMnemonic sha256 (generateMnemonic sha256 entropy) = true) ↔
      (∀ i ∈ Bip39.indices sha256 entropy, i < bip39Wordlist.length) ∧
      ChecksumAt sha256
        ((Bip39.indices sha256 entropy).flatMap fun i => toBits 11 (firstIndex i)) 15 4 := by
  rw [length_words_generateMnemonic_iff]
  refine and_congr_right fun hlt => ?_
  have hwords := words_generateMnemonic_of_lt sha256 entropy hlt
  have hlen := (length_words_generateMnemonic_iff sha256 entropy).mpr hlt
  have hmem : ∀ w ∈ words isSpace (generateMnemonic sha256 entropy), w ∈ bip39Wordlist := by
    rw [words_generateMnemonic]
    intro w hw
    exact mem_bip39Wordlist_of_mem hw
  have hbits : phraseBits (words isSpace (generateMnemonic sha256 entropy)) =
      (Bip39.indices sha256 entropy).flatMap fun i => toBits 11 (firstIndex i) := by
    rw [hwords, phraseBits, List.flatMap_map]
    rfl
  rw [validateMnemonic_iff, hlen, hbits]
  exact ⟨fun h => h.2.2, fun h => ⟨Or.inl rfl, hmem, h⟩⟩

end

/-- From sixteen bytes of ones no phrase of twelve words is generated. -/
theorem not_generated_valid_ones :
    ∃ entropy : FixedBytes 16, ∀ sha256,
      (words isSpace (generateMnemonic sha256 entropy)).length ≠ 12 := by
  refine ⟨⟨List.replicate 16 0xFF, rfl⟩, fun sha256 hlen => ?_⟩
  rw [length_words_generateMnemonic_iff, Bip39.indices, groups_succ, List.forall_mem_cons] at hlen
  have hfirst := hlen.1
  rw [List.take_append_of_le_length (by rw [length_bytesBits]; decide)] at hfirst
  revert hfirst
  decide +kernel

end Gambit.Wallet
