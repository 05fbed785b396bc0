import GambitCore.Codec.NumberText
import GambitCore.Rpc

/-!
# Blocks over RPC

`handle_getBlockByNumber` and `handle_getBlockByHash`, and what the numbers in their objects and in
those of `handle_getTransactionByHash` say. A number is shown as the hexadecimal text of its RLP
encoding, which is the number itself only where the encoding has no header: from 1 to 127. The
block number of `handle_getBlockByNumber` is the text of the request.

## Main definitions

* `objectText` — the text of an object whose members are all strings
* `getBlockByNumber`, `getBlockByHash`
* `Request`, `Request.found`, `Request.object` — the three lookups as what they find and show
* `IsQuantity` — a text that denotes a number

## Main results

* `isQuantity_quantity_iff` — the encoder's text denotes 1 to 127 and nothing else
* `Request.quantities_faithful_iff` — when the numbers of a reply are those that are stored
* `blockLookups_disagree` — the two lookups of one block show different objects
-/

namespace Gambit

open Rlp Codec

/-! ### The handlers -/

/-- The members of an object, each with the text of its string. -/
abbrev Members := List (String × Str)

/-- One member. -/
def memberText (m : String × Str) : Str := quoted (str m.1) ++ str ":" ++ quoted m.2

/-- The object the handlers put together. -/
def objectText (ms : Members) : Str :=
  str "\x7b" ++ (str ",").intercalate (ms.map memberText) ++ str "\x7d"

/-- How the handlers show a number. -/
def quantity (v : UInt64) : Str := str "0x" ++ toHex (encodeUint v)

/-- `std::stoull(text, nullptr, 16)`. Both of its exceptions carry its name. -/
def stoull16 (text : Str) : Result UInt64 :=
  match strtoul 16 text with
  | .ok v => .ok v
  | .error _ => runtimeError "stoull"

/-- The object of `handle_getBlockByNumber`: the number is the text of the request. -/
def numberObject (numHex : Str) (b : Block) : Members :=
  [("number", str "0x" ++ numHex), ("hash", b.hash), ("parentHash", b.prevHash),
    ("stateRoot", b.stateAfter), ("txRoot", b.txRoot), ("timestamp", quantity b.timestamp)]

/-- The object of `handle_getBlockByHash`: each string gets a `0x`. -/
def hashObject (b : Block) : Members :=
  [("number", quantity b.index), ("hash", str "0x" ++ b.hash),
    ("parentHash", str "0x" ++ b.prevHash), ("stateRoot", str "0x" ++ b.stateAfter),
    ("txRoot", str "0x" ++ b.txRoot), ("timestamp", quantity b.timestamp)]

/-- The block at a number. -/
def blockAt (bc : Blockchain) (num : UInt64) : Option Block := bc.chain[num.toNat]?

/-- The first block with a hash, a `0x` on either side left aside. -/
def blockWithHash (bc : Blockchain) (hashHex : Str) : Option Block :=
  bc.chain.find? fun b => stripHexPrefix b.hash = stripHexPrefix hashHex

/-- `handle_getBlockByNumber` up to the text of the reply. -/
def getBlockByNumber (bc : Blockchain) (numHex : Str) : Result Reply := do
  let num ← stoull16 numHex
  match blockAt bc num with
  | none => return .result (str "null")
  | some b => return .result (objectText (numberObject numHex b))

/-- `handle_getBlockByHash` up to the text of the reply. -/
def getBlockByHash (bc : Blockchain) (hashHex : Str) : Reply :=
  match blockWithHash bc hashHex with
  | some b => .result (objectText (hashObject b))
  | none => .result (str "null")

/-- `handle_getBlockByNumber`. -/
def handleGetBlockByNumber (bc : Blockchain) (id numHex : Str) : Result Str := do
  let reply ← getBlockByNumber bc numHex
  return reply.text id

/-- `handle_getBlockByHash`. -/
def handleGetBlockByHash (bc : Blockchain) (id hashHex : Str) : Str :=
  (getBlockByHash bc hashHex).text id

/-! ### The lookups as requests -/

/-- A lookup. -/
inductive Request
  | getBlockByNumber (numHex : Str)
  | getBlockByHash (hashHex : Str)
  | getTransactionByHash (hashHex : Str)

/-- What a lookup finds: a block, a pending transaction, or one in a block. -/
inductive Found
  | block (b : Block)
  | pending (tx : Transaction)
  | mined (b : Block) (tx : Transaction)

/-- What is found, where the lookup returns. -/
def Request.found (bc : Blockchain) : Request → Result (Option Found)
  | getBlockByNumber numHex => do
    let num ← stoull16 numHex
    return (blockAt bc num).map .block
  | getBlockByHash hashHex => .ok ((blockWithHash bc hashHex).map .block)
  | getTransactionByHash hashHex =>
    match bc.mempool.find? (·.hash = hashHex) with
    | some tx => .ok (some (.pending tx))
    | none =>
      .ok ((bc.chain.findSome? fun b =>
        (b.transactions.find? (·.hash = hashHex)).map fun tx => (b, tx)).map fun (b, tx) =>
          .mined b tx)

/-- What of it is shown. -/
def Request.object (r : Request) : Found → Members
  | .block b =>
    match r with
    | getBlockByNumber numHex => numberObject numHex b
    | _ => hashObject b
  | .pending tx =>
    [("hash", tx.hash), ("from", tx.from_.toHex true), ("to", tx.to_.toHex true),
      ("value", quantity tx.value), ("nonce", quantity tx.nonce)]
  | .mined b tx =>
    [("hash", tx.hash), ("blockHash", b.hash), ("blockNumber", quantity b.index),
      ("from", tx.from_.toHex true), ("to", tx.to_.toHex true), ("value", quantity tx.value),
      ("nonce", quantity tx.nonce)]

/-- The numbers among it, under the names of their members. -/
def Found.stored : Found → List (String × UInt64)
  | block b => [("number", b.index), ("timestamp", b.timestamp)]
  | pending tx => [("value", tx.value), ("nonce", tx.nonce)]
  | mined b tx => [("blockNumber", b.index), ("value", tx.value), ("nonce", tx.nonce)]

/-- The reply of a handler. -/
def Request.reply (bc : Blockchain) : Request → Result Reply
  | getBlockByNumber numHex => Gambit.getBlockByNumber bc numHex
  | getBlockByHash hashHex => .ok (Gambit.getBlockByHash bc hashHex)
  | getTransactionByHash hashHex => .ok (Gambit.getTransactionByHash bc hashHex)

/-- The result of a lookup as text. -/
def resultText (r : Request) : Option Found → Str
  | some f => objectText (r.object f)
  | none => str "null"

theorem objectText_pending (tx : Transaction) (r : Request) :
    objectText (r.object (.pending tx)) = txObject tx.hash (txMembers tx) := by
  simp [objectText, memberText, quoted, Request.object, txObject, txMembers, quantity, str]

theorem objectText_mined (b : Block) (tx : Transaction) (r : Request) :
    objectText (r.object (.mined b tx)) = txObject tx.hash (blockMembers b ++ txMembers tx) := by
  simp [objectText, memberText, quoted, Request.object, txObject, txMembers, blockMembers, quantity,
    str]

/-- Each handler answers with what its lookup finds, put into text. -/
theorem Request.reply_eq (bc : Blockchain) (r : Request) :
    r.reply bc = (fun f => .result (resultText r f)) <$> r.found bc := by
  cases r with
  | getBlockByNumber numHex =>
    simp only [reply, found, Gambit.getBlockByNumber]
    cases stoull16 numHex with
    | error e => rfl
    | ok num =>
      simp only [bind, Except.bind]
      cases blockAt bc num <;> rfl
  | getBlockByHash hashHex =>
    simp only [reply, found, Gambit.getBlockByHash]
    cases blockWithHash bc hashHex <;> rfl
  | getTransactionByHash hashHex =>
    simp only [reply, found, Gambit.getTransactionByHash]
    cases bc.mempool.find? (·.hash = hashHex) with
    | some tx => simp [resultText, objectText_pending, Functor.map, Except.map]
    | none =>
      dsimp only
      split
      · next b tx h => simp [h, resultText, objectText_mined, Functor.map, Except.map]
      · next h => simp [h, resultText, Functor.map, Except.map]

/-! ### Quantities -/

/-- A text that denotes a number: `0x` and hexadecimal digits. -/
def IsQuantity (text : Str) (n : ℕ) : Prop :=
  ∃ digits, text = str "0x" ++ digits ∧ IsNumber 16 digits n

theorem isQuantity_prefixed_iff (digits : Str) (n : ℕ) :
    IsQuantity (str "0x" ++ digits) n ↔ IsNumber 16 digits n := by
  constructor
  · rintro ⟨digits', heq, h⟩
    rw [List.append_cancel_left heq]
    exact h
  · intro h
    exact ⟨digits, rfl, h⟩

/-- The two digits of a byte. -/
theorem charValue_hexDigit (b : UInt8) :
    charValue (hexDigit (b >>> 4)) = b.toNat / 16 ∧
      charValue (hexDigit (b &&& 0x0F)) = b.toNat % 16 := by
  revert b
  exact forall_byte (by decide +kernel)

theorem digitsValue_toHex (bs : Bytes) : digitsValue 16 (toHex bs) = ofBigEndian bs := by
  induction bs using List.reverseRecOn with
  | nil => rfl
  | append_singleton bs b ih =>
    obtain ⟨hhi, hlo⟩ := charValue_hexDigit b
    have happend : toHex (bs ++ [b]) =
        toHex bs ++ [hexDigit (b >>> 4)] ++ [hexDigit (b &&& 0x0F)] := by
      simp [toHex]
    rw [happend, digitsValue_append_singleton, digitsValue_append_singleton, ih, hhi, hlo,
      ofBigEndian_append_singleton]
    omega

theorem isNumber_toHex_iff {bs : Bytes} (hbs : bs ≠ []) (n : ℕ) :
    IsNumber 16 (toHex bs) n ↔ ofBigEndian bs = n := by
  constructor
  · intro h
    rw [← digitsValue_toHex, h.value]
  · intro h
    refine ⟨?_, fun c hc => isDigit_of_mem_toHex hc, by rw [digitsValue_toHex, h]⟩
    rw [← List.length_pos_iff, length_toHex]
    exact Nat.mul_pos (by decide) (List.length_pos_iff.mpr hbs)

/-- The number has an encoding without a header. -/
def HasNoHeader (v : UInt64) : Prop := 1 ≤ v.toNat ∧ v.toNat ≤ 127

theorem bigEndian_of_hasNoHeader {v : UInt64} (h : HasNoHeader v) :
    bigEndian v.toNat = [UInt8.ofNat v.toNat] := by
  obtain ⟨hpos, hle⟩ := h
  have hdiv : v.toNat / 256 = 0 := Nat.div_eq_of_lt (by omega)
  have hmod : v.toNat % 256 = v.toNat := Nat.mod_eq_of_lt (by omega)
  rw [bigEndian_of_pos hpos, hdiv, hmod, bigEndian_zero, List.nil_append]

/-- A short byte string other than a small byte gets a header of one byte. -/
theorem encodeBytes_header {bs : Bytes} (hlen : bs.length ≤ 8)
    (hbyte : ∀ b, bs = [b] → ¬ b < 0x80) : ∃ h : UInt8, h ≠ 0 ∧ encodeBytes bs = h :: bs := by
  have hsize : (size bs).toNat = bs.length := toNat_size (by omega)
  have hshort : size bs < 56 := by
    rw [UInt64.lt_iff_toNat_lt, hsize]
    exact Nat.lt_of_le_of_lt hlen (by decide)
  refine ⟨0x80 + (size bs).toUInt8, ?_, ?_⟩
  · intro hzero
    have htoNat : (0x80 + (size bs).toUInt8).toNat = 0 := by rw [hzero]; rfl
    rw [UInt8.toNat_add, UInt64.toNat_toUInt8, hsize] at htoNat
    simp only [UInt8.reduceToNat] at htoNat
    omega
  · unfold encodeBytes
    split
    · next b => rw [if_neg (hbyte b rfl), encodeLength, if_pos hshort]; rfl
    · rw [encodeLength, if_pos hshort]; rfl

/-- Read as a number, the encoding of a number is that number only where it has no header. -/
theorem ofBigEndian_encodeUint_iff (v : UInt64) :
    ofBigEndian (encodeUint v) = v.toNat ↔ HasNoHeader v := by
  rw [encodeUint_eq]
  constructor
  · intro h
    by_contra hno
    have hlen : (bigEndian v.toNat).length ≤ 8 :=
      length_bigEndian_le (lt_of_lt_of_eq v.toNat_lt (by norm_num))
    have hbyte : ∀ b, bigEndian v.toNat = [b] → ¬ b < 0x80 := by
      intro b hb hlt
      apply hno
      have hval : b.toNat = v.toNat := by
        have hread := ofBigEndian_bigEndian v.toNat
        rw [hb] at hread
        simpa [ofBigEndian] using hread
      have hpos : v.toNat ≠ 0 := by
        intro hzero
        rw [hzero, bigEndian_zero] at hb
        cases hb
      have hle : b.toNat < 128 := hlt
      exact ⟨Nat.pos_of_ne_zero hpos, by omega⟩
    obtain ⟨c, hc, hencode⟩ := encodeBytes_header hlen hbyte
    rw [hencode, ofBigEndian_cons, ofBigEndian_bigEndian] at h
    have hpos : 0 < c.toNat * 256 ^ (bigEndian v.toNat).length := by
      apply Nat.mul_pos
      · exact Nat.pos_of_ne_zero fun hzero => hc (UInt8.toNat_inj.mp hzero)
      · exact Nat.pow_pos (by decide)
    omega
  · intro h
    have hsmall : UInt8.ofNat v.toNat < 0x80 := by
      rw [UInt8.lt_iff_toNat_lt, UInt8.toNat_ofNat_of_lt' (Nat.lt_of_le_of_lt h.2 (by decide))]
      exact Nat.lt_of_le_of_lt h.2 (by decide)
    rw [bigEndian_of_hasNoHeader h, encodeBytes, if_pos hsmall, ← bigEndian_of_hasNoHeader h,
      ofBigEndian_bigEndian]

/-- The encoder's text denotes the numbers from 1 to 127 and no others. -/
theorem isQuantity_quantity_iff (v : UInt64) :
    IsQuantity (quantity v) v.toNat ↔ HasNoHeader v := by
  have hne : encodeUint v ≠ [] := by
    rw [encodeUint_eq]
    exact encodeBytes_ne_nil _
  rw [quantity, isQuantity_prefixed_iff, isNumber_toHex_iff hne, ofBigEndian_encodeUint_iff]

/-! ### Faithful replies -/

namespace Request

/-- Where the lookup finds something, each number in its object is the one that is stored. -/
def Faithful (bc : Blockchain) (r : Request) : Prop :=
  ∀ f, r.found bc = .ok (some f) →
    ∀ p ∈ f.stored, ∃ text, (r.object f).lookup p.1 = some text ∧ IsQuantity text p.2.toNat

/-- The numbers found have encodings without a header. The number of a block that was asked for by
number is the request's: digits only, that denote the index in the block. -/
def Plain (r : Request) : Found → Prop
  | .block b =>
    match r with
    | getBlockByNumber numHex =>
      (∀ c ∈ numHex, isDigit 16 c) ∧ stoull16 numHex = .ok b.index ∧ HasNoHeader b.timestamp
    | _ => HasNoHeader b.index ∧ HasNoHeader b.timestamp
  | .pending tx => HasNoHeader tx.value ∧ HasNoHeader tx.nonce
  | .mined b tx => HasNoHeader b.index ∧ HasNoHeader tx.value ∧ HasNoHeader tx.nonce

/-- A text that is read as some number shows the index exactly when it consists of digits and is
read as the index. -/
theorem isQuantity_numHex_iff {numHex : Str} {num : UInt64} (h : stoull16 numHex = .ok num)
    (index : UInt64) :
    IsQuantity (str "0x" ++ numHex) index.toNat ↔
      (∀ c ∈ numHex, isDigit 16 c) ∧ stoull16 numHex = .ok index := by
  have hread : strtoul 16 numHex = .ok num := by
    unfold stoull16 at h
    split at h
    · next v hv => rw [hv, Except.ok.inj h]
    · cases h
  have hdigits := isNumber_iff_of_strtoul (by decide) hread
  rw [isQuantity_prefixed_iff, h, Except.ok.injEq]
  constructor
  · intro hnumber
    refine ⟨hnumber.digits, ?_⟩
    exact UInt64.toNat_inj.mp ((hdigits.mpr hnumber.digits).unique hnumber)
  · rintro ⟨hall, rfl⟩
    exact hdigits.mpr hall

/-- The numbers in the object of what was found. -/
theorem forall_stored_iff {bc : Blockchain} {r : Request} {f : Found}
    (hfound : r.found bc = .ok (some f)) :
    (∀ p ∈ f.stored, ∃ text, (r.object f).lookup p.1 = some text ∧ IsQuantity text p.2.toNat) ↔
      r.Plain f := by
  cases f with
  | block b =>
    cases r with
    | getBlockByNumber numHex =>
      obtain ⟨num, hnum, -⟩ := bind_eq_ok.mp hfound
      simp [Found.stored, object, numberObject, Plain, List.lookup_cons, isQuantity_quantity_iff,
        isQuantity_numHex_iff hnum, and_assoc]
    | getBlockByHash hashHex =>
      simp [Found.stored, object, hashObject, Plain, List.lookup_cons, isQuantity_quantity_iff]
    | getTransactionByHash hashHex =>
      simp [Found.stored, object, hashObject, Plain, List.lookup_cons, isQuantity_quantity_iff]
  | pending tx => simp [Found.stored, object, Plain, List.lookup_cons, isQuantity_quantity_iff]
  | mined b tx => simp [Found.stored, object, Plain, List.lookup_cons, isQuantity_quantity_iff]

/-- The numbers of a reply are those that are stored exactly when each is from 1 to 127, and when a
block asked for by number was asked for in digits only. -/
theorem quantities_faithful_iff (bc : Blockchain) (r : Request) :
    r.Faithful bc ↔ ∀ f, r.found bc = .ok (some f) → r.Plain f :=
  forall₂_congr fun _ hfound => forall_stored_iff hfound

/-- The genesis block of a fresh chain is found under its own hash. -/
theorem found_genesis :
    (getBlockByHash freshChain.back.hash).found freshChain =
      .ok (some (.block freshChain.back)) := by
  have hfind : blockWithHash freshChain freshChain.back.hash = some freshChain.back :=
    List.find?_cons_of_pos (decide_eq_true rfl)
  rw [found, hfind]
  rfl

/-- The number of the genesis block, 0, is shown as `0x80`. -/
theorem not_faithful_genesis :
    Blockchain.new 0 {} = .ok freshChain ∧ freshChain.back.index = 0 ∧
      ((getBlockByHash freshChain.back.hash).object (.block freshChain.back)).lookup "number" =
        some (str "0x80") ∧
      ¬ (getBlockByHash freshChain.back.hash).Faithful freshChain := by
  refine ⟨new_eq_freshChain, rfl, rfl, fun h => ?_⟩
  have hplain : HasNoHeader 0 ∧ _ := (forall_stored_iff found_genesis).mp (h _ found_genesis)
  exact absurd hplain.1.1 (by decide)

end Request

/-! ### One block, two lookups -/

/-- Both lookups find a block, and show the same object. -/
def LookupsAgree (bc : Blockchain) (numHex hashHex : Str) : Prop :=
  ∃ f g, (Request.getBlockByNumber numHex).found bc = .ok (some f) ∧
    (Request.getBlockByHash hashHex).found bc = .ok (some g) ∧
    (Request.getBlockByNumber numHex).object f = (Request.getBlockByHash hashHex).object g

theorem eq_block_of_found_byNumber {bc : Blockchain} {numHex : Str} {f : Found}
    (h : (Request.getBlockByNumber numHex).found bc = .ok (some f)) : ∃ b, f = .block b := by
  obtain ⟨num, -, hmap⟩ := bind_eq_ok.mp h
  obtain ⟨b, -, rfl⟩ := Option.map_eq_some_iff.mp (Except.ok.inj hmap)
  exact ⟨b, rfl⟩

theorem eq_block_of_found_byHash {bc : Blockchain} {hashHex : Str} {f : Found}
    (h : (Request.getBlockByHash hashHex).found bc = .ok (some f)) : ∃ b, f = .block b := by
  obtain ⟨b, -, rfl⟩ := Option.map_eq_some_iff.mp (Except.ok.inj h)
  exact ⟨b, rfl⟩

/-- No text of hexadecimal digits begins with another `0x`. -/
theorem marked_ne_quantity (digits : Str) (v : UInt64) :
    str "0x" ++ (str "0x" ++ digits) ≠ quantity v := by
  intro h
  have htext : str "0x" ++ digits = toHex (encodeUint v) := List.append_cancel_left h
  have hx : (120 : UInt8) ∈ toHex (encodeUint v) := by
    rw [← htext]
    exact List.mem_cons_of_mem _ List.mem_cons_self
  exact absurd (isDigit_of_mem_toHex hx) (by decide)

/-- Some block is found under the hash of a block. -/
theorem found_own_hash {bc : Blockchain} {b : Block} (hb : b ∈ bc.chain) :
    ∃ b', (Request.getBlockByHash b.hash).found bc = .ok (some (.block b')) := by
  have hsome : (blockWithHash bc b.hash).isSome :=
    List.find?_isSome.mpr ⟨b, hb, decide_eq_true rfl⟩
  obtain ⟨b', hb'⟩ := Option.isSome_iff_exists.mp hsome
  exact ⟨b', by rw [Request.found, hb']; rfl⟩

/-- The block with number `n` is found under the hexadecimal form of `n`. -/
theorem found_marked {bc : Blockchain} {n : ℕ} {b : Block} (hb : bc.chain[n]? = some b)
    (hn : n < 2 ^ 64) {digits : Str} (hdigits : IsNumber 16 digits n) :
    (Request.getBlockByNumber (str "0x" ++ digits)).found bc = .ok (some (.block b)) := by
  have hread : stoull16 (str "0x" ++ digits) = .ok (UInt64.ofNat n) := by
    have hmarked : strtoul 16 (str "0x" ++ digits) = _ := strtoul_marked hdigits
    rw [if_neg (Nat.not_le.mpr hn)] at hmarked
    rw [stoull16, hmarked]
  have hat : blockAt bc (UInt64.ofNat n) = some b := by
    rw [blockAt, UInt64.toNat_ofNat_of_lt' hn, hb]
  simp only [Request.found, hread, hat, bind, pure, Except.bind, Except.pure, Option.map_some]

theorem not_lookupsAgree (bc : Blockchain) (digits hashHex : Str) :
    ¬ LookupsAgree bc (str "0x" ++ digits) hashHex := by
  rintro ⟨f, g, hf, hg, hsame⟩
  obtain ⟨b₁, rfl⟩ := eq_block_of_found_byNumber hf
  obtain ⟨b₂, rfl⟩ := eq_block_of_found_byHash hg
  have hnumber := congrArg (List.lookup "number") hsame
  exact marked_ne_quantity digits b₂.index (Option.some.inj hnumber)

/-- Each block is found by the hexadecimal form of its number, and some block is found by its hash.
The objects shown are never the same, on no chain and whichever block the hash finds. -/
theorem blockLookups_disagree (bc : Blockchain) {n : ℕ} {b : Block} (hb : bc.chain[n]? = some b)
    (hn : n < 2 ^ 64) {digits : Str} (hdigits : IsNumber 16 digits n) :
    (Request.getBlockByNumber (str "0x" ++ digits)).found bc = .ok (some (.block b)) ∧
      (∃ b', (Request.getBlockByHash b.hash).found bc = .ok (some (.block b'))) ∧
      ¬ LookupsAgree bc (str "0x" ++ digits) b.hash :=
  ⟨found_marked hb hn hdigits, found_own_hash (List.mem_of_getElem? hb),
    not_lookupsAgree bc digits b.hash⟩

theorem isNumber_zero : IsNumber 16 (str "0") 0 :=
  ⟨by decide, List.all_eq_true.mp (by decide), by decide⟩

theorem blockLookups_disagree_genesis :
    freshChain.chain[0]? = some freshChain.back ∧ IsNumber 16 (str "0") 0 ∧
      ¬ LookupsAgree freshChain (str "0x" ++ str "0") freshChain.back.hash :=
  ⟨rfl, isNumber_zero,
    (blockLookups_disagree freshChain (n := 0) rfl (by decide) isNumber_zero).2.2⟩

/-- Of the genesis block of a fresh chain, one lookup shows the number `0x0x0` and the parent
`0x00`, the other the number `0x80` and the parent `0x0x00`. -/
theorem genesis_shown_twice :
    Blockchain.new 0 {} = .ok freshChain ∧
      (Request.getBlockByNumber (str "0x0")).found freshChain =
        .ok (some (.block freshChain.back)) ∧
      (Request.getBlockByHash freshChain.back.hash).found freshChain =
        .ok (some (.block freshChain.back)) ∧
      (numberObject (str "0x0") freshChain.back).lookup "number" = some (str "0x0x0") ∧
      (numberObject (str "0x0") freshChain.back).lookup "parentHash" = some (str "0x00") ∧
      (hashObject freshChain.back).lookup "number" = some (str "0x80") ∧
      (hashObject freshChain.back).lookup "parentHash" = some (str "0x0x00") ∧
      ¬ LookupsAgree freshChain (str "0x0") freshChain.back.hash :=
  ⟨new_eq_freshChain, found_marked (n := 0) rfl (by decide) isNumber_zero, Request.found_genesis,
    rfl, rfl, rfl, rfl, not_lookupsAgree freshChain (str "0") _⟩

end Gambit
