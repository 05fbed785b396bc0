import GambitCore.Block.Wire
import GambitCore.Blockchain.Integrity
import GambitCore.Codec.Separated
import GambitCore.Rlp.Bounds
import GambitCore.Transaction.Relay

/-!
# What the hashed texts determine

Three hashes are over texts joined with `|`: the root of the transactions, the hash of a block and
the commitment of a proof. A collision of hashes apart, equal hashes mean equal texts, and the
question is what equal texts mean.

The transactions are written as hexadecimal text, which has no `|` in it, so their root determines
them. The texts of a header and of a proof are taken as they are. Those of a header that has come
over the wire are any bytes a peer likes, and a `|` can be moved from one text into the next. The
receipts root of such a header is empty, so the fields before it end with two separators in a row.

## Main definitions

* `Blockchain.txRootText` — the text `computeTxRoot` hashes
* `Block.HashBinds`, `ZkProof.CommitmentBinds` — equal texts mean equal fields
* `Block.Unambiguous`, `ZkProof.Unambiguous` — no separator where it could be misread

## Main results

* `txRootText_determines` — the root determines the transactions and their order
* `hashBinds_iff`, `commitmentBinds_iff` — the headers, and the proofs, that their texts determine
-/

namespace Gambit

open Rlp Codec

/-- The separator of all three texts, as a byte. -/
theorem str_bar : str "|" = [124] := rfl

theorem bar_notMem_toHex (bs : Bytes) : 124 ∉ toHex bs := by
  intro h
  obtain ⟨n, hn⟩ := returns_of_mem_toHex h
  cases hn

/-! ### The root of the transactions -/

namespace Transaction

/-- The fields of a signed transaction that are on the wire as they are. -/
def signedFields (tx : Transaction) :
    UInt64 × UInt64 × UInt64 × Address × UInt64 × Bytes × Bytes × Bytes :=
  (tx.nonce, tx.gasPrice, tx.gasLimit, tx.to_, tx.value, tx.data, tx.sig.r, tx.sig.s)

theorem signedFields_of_rlpEncodeSigned {tx tx' : Transaction}
    (hlen : tx.rlpEncodeSigned.length < 2 ^ 64) (h : tx.rlpEncodeSigned = tx'.rlpEncodeSigned) :
    tx.signedFields = tx'.signedFields := by
  rw [rlpEncodeSigned_eq] at hlen
  rw [rlpEncodeSigned_eq, rlpEncodeSigned_eq] at h
  have hitem := Item.encode_injective hlen h
  simp only [signedItem, Item.list.injEq, List.cons.injEq, Item.bytes.injEq, bigEndian_inj,
    and_true] at hitem
  obtain ⟨hnonce, hprice, hlimit, hto, hvalue, hdata, -, hr, hs⟩ := hitem
  simp only [signedFields, hnonce, hprice, hlimit, toField_injective hto, hvalue, hdata, hr, hs]

theorem bar_notMem_toHex (tx : Transaction) : 124 ∉ tx.toHex := by
  rw [toHex, List.mem_append, not_or]
  exact ⟨by decide, Gambit.bar_notMem_toHex _⟩

end Transaction

namespace Blockchain

/-- The text `computeTxRoot` hashes. -/
def txRootText (txs : List Transaction) : Str := txs.flatMap fun tx => tx.toHex ++ str "|"

theorem computeTxRoot_eq {txs : List Transaction} (h : txs ≠ []) :
    computeTxRoot txs = toHex (keccak256 (txRootText txs)) := by
  rw [computeTxRoot, if_neg (by simpa using h), txRootText]

theorem txRootText_eq (txs : List Transaction) :
    txRootText txs = terminated 124 (txs.map Transaction.toHex) := by
  rw [txRootText, terminated, List.flatMap_map]
  rfl

/-- Equal texts are made of the same encodings in the same order. -/
theorem rlpEncodeSigned_of_txRootText {txs txs' : List Transaction}
    (h : txRootText txs = txRootText txs') :
    txs.map Transaction.rlpEncodeSigned = txs'.map Transaction.rlpEncodeSigned := by
  have hfree (txs : List Transaction) : ∀ f ∈ txs.map Transaction.toHex, 124 ∉ f := by
    intro f hf
    obtain ⟨tx, -, rfl⟩ := List.mem_map.mp hf
    exact tx.bar_notMem_toHex
  rw [txRootText_eq, txRootText_eq] at h
  have htexts := terminated_injective (hfree txs) (hfree txs') h
  have hinj : Function.Injective fun enc => str "0x" ++ toHex enc :=
    fun _ _ heq => toHex_injective (List.append_cancel_left heq)
  apply List.map_injective_iff.mpr hinj
  rw [List.map_map, List.map_map]
  exact htexts

/-- Transactions with the same encodings, one by one, have the same fields. -/
theorem signedFields_of_map_rlpEncodeSigned {txs txs' : List Transaction}
    (hlen : ∀ tx ∈ txs, tx.rlpEncodeSigned.length < 2 ^ 64)
    (h : txs.map Transaction.rlpEncodeSigned = txs'.map Transaction.rlpEncodeSigned) :
    txs.map Transaction.signedFields = txs'.map Transaction.signedFields := by
  induction txs generalizing txs' with
  | nil =>
    obtain rfl := List.map_eq_nil_iff.mp h.symm
    rfl
  | cons tx txs ih =>
    cases txs' with
    | nil => cases h
    | cons tx' txs' =>
      obtain ⟨hhead, htail⟩ := List.cons.inj h
      obtain ⟨hfirst, hrest⟩ := List.forall_mem_cons.mp hlen
      rw [List.map_cons, List.map_cons,
        Transaction.signedFields_of_rlpEncodeSigned hfirst hhead, ih hrest htail]

/-- The text determines how many transactions there are and, position by position, the bytes and the
fields of each. -/
theorem txRootText_determines {txs txs' : List Transaction}
    (hlen : ∀ tx ∈ txs, tx.rlpEncodeSigned.length < 2 ^ 64)
    (h : txRootText txs = txRootText txs') :
    txs.length = txs'.length ∧
      txs.map Transaction.rlpEncodeSigned = txs'.map Transaction.rlpEncodeSigned ∧
      txs.map Transaction.signedFields = txs'.map Transaction.signedFields := by
  have hbytes := rlpEncodeSigned_of_txRootText h
  have hcount := congrArg List.length hbytes
  rw [List.length_map, List.length_map] at hcount
  exact ⟨hcount, hbytes, signedFields_of_map_rlpEncodeSigned hlen hbytes⟩

/-- Two transfers, and the same two with their cached hashes filled in. -/
theorem txRootText_determines_two :
    let txs : List Transaction := [{ nonce := 0, value := 5 }, { nonce := 1, data := [7] }]
    let txs' := txs.map fun tx => { tx with hash := str "0x00" }
    (∀ tx ∈ txs, tx.rlpEncodeSigned.length < 2 ^ 64) ∧ txRootText txs = txRootText txs' ∧
      txs.map Transaction.signedFields = txs'.map Transaction.signedFields := by
  intro txs txs'
  have hlen : ∀ tx ∈ txs, tx.rlpEncodeSigned.length < 2 ^ 64 := by decide +kernel
  have htext : txRootText txs = txRootText txs' := by
    rw [txRootText, txRootText, List.flatMap_map]
    rfl
  exact ⟨hlen, htext, (txRootText_determines hlen htext).2.2⟩

end Blockchain

/-! ### Headers -/

namespace Block

theorem bar_notMem_decimal (n : UInt64) : 124 ∉ decimal n := by
  intro h
  exact absurd ((isNumber_decimal n).digits 124 h) (by decide)

/-- The fields the hash is over. -/
def headerFields (b : Block) : UInt64 × Str × Str × Str × Str × Str × Str × UInt64 :=
  (b.index, b.prevHash, b.stateBefore, b.stateAfter, b.txRoot, b.receiptsRoot,
    b.proof.commitment, b.timestamp)

/-- The texts of a header before the root of the receipts. -/
def texts (b : Block) : List Str := [b.prevHash, b.stateBefore, b.stateAfter, b.txRoot]

/-- No block from the wire has the hashed text of `b` and another header. -/
def HashBinds (S : Secp256k1) (b : Block) : Prop :=
  ∀ hex' b', fromHex S hex' = .ok b' → b'.hashText = b.hashText →
    b'.headerFields = b.headerFields

/-- No separator in a text that another one follows, and no second pair of separators in a row. -/
def Unambiguous (b : Block) : Prop :=
  (∀ f ∈ b.texts, 124 ∉ f) ∧ ¬ str "||" <:+: str "|" ++ b.proof.commitment

theorem unambiguous_iff {b : Block} :
    b.Unambiguous ↔
      (∀ f ∈ b.texts, 124 ∉ f) ∧ ¬ [124, 124] <:+: 124 :: b.proof.commitment :=
  Iff.rfl

theorem hashText_eq {b : Block} (h : b.receiptsRoot = []) :
    b.hashText = decimal b.index ++ 124 ::
      ((terminated 124 b.texts ++ 124 :: b.proof.commitment) ++ 124 :: decimal b.timestamp) := by
  simp [hashText, texts, str_bar, h]

theorem headerFields_eq_iff {b b' : Block} :
    b'.headerFields = b.headerFields ↔
      b'.index = b.index ∧ b'.texts = b.texts ∧ b'.receiptsRoot = b.receiptsRoot ∧
        b'.proof.commitment = b.proof.commitment ∧ b'.timestamp = b.timestamp := by
  simp only [headerFields, texts, Prod.mk.injEq, List.cons.injEq, and_true, and_assoc]

theorem hashText_congr {b b' : Block} (h : b'.headerFields = b.headerFields) :
    b'.hashText = b.hashText := by
  simp only [headerFields, Prod.mk.injEq] at h
  obtain ⟨hindex, hprev, hbefore, hafter, hroot, hreceipts, hcommitment, htime⟩ := h
  rw [hashText, hashText, hindex, hprev, hbefore, hafter, hroot, hreceipts, hcommitment, htime]

/-- The separators behind the index and before the timestamp cannot be misread. -/
theorem hashText_eq_iff {b b' : Block} (h : b.receiptsRoot = []) (h' : b'.receiptsRoot = []) :
    b'.hashText = b.hashText ↔
      b'.index = b.index ∧
        terminated 124 b'.texts ++ 124 :: b'.proof.commitment =
          terminated 124 b.texts ++ 124 :: b.proof.commitment ∧
        b'.timestamp = b.timestamp := by
  rw [hashText_eq h, hashText_eq h']
  constructor
  · intro htext
    obtain ⟨hindex, hrest⟩ :=
      append_cons_inj_left (bar_notMem_decimal _) (bar_notMem_decimal _) htext
    obtain ⟨hmiddle, htime⟩ :=
      append_cons_inj_right (bar_notMem_decimal _) (bar_notMem_decimal _) hrest
    exact ⟨decimal_injective hindex, hmiddle, decimal_injective htime⟩
  · rintro ⟨hindex, hmiddle, htime⟩
    rw [hindex, hmiddle, htime]

/-- What a block from the wire has in its header: texts out of the list it was read from, and no
root of the receipts. -/
theorem of_ofDecoded {S : Secp256k1} {badBlock badTxs : String} {root : Decoded} {b : Block}
    (h : ofDecoded S badBlock badTxs root = .ok b) :
    b.receiptsRoot = [] ∧
      (b.texts.map List.length).sum + b.proof.commitment.length ≤
        (root.list.map fun item => item.bytes.length).sum := by
  unfold ofDecoded at h
  split at h
  · next hlist =>
    split at h
    · cases h
    · obtain ⟨txs, -, h⟩ := bind_eq_ok.mp h
      obtain rfl := Except.ok.inj h
      refine ⟨rfl, ?_⟩
      simp only [hlist, texts, List.map_cons, List.map_nil, List.sum_cons, List.sum_nil]
      omega
  · cases h

theorem receiptsRoot_of_fromHex {S : Secp256k1} {hex : Str} {b : Block}
    (h : fromHex S hex = .ok b) : b.receiptsRoot = [] := by
  obtain ⟨raw, -, h⟩ := bind_eq_ok.mp h
  obtain ⟨root, -, h⟩ := bind_eq_ok.mp h
  exact (of_ofDecoded h).1

theorem length_texts_of_fromHex {S : Secp256k1} {hex : Str} {b : Block}
    (hlen : hex.length < 2 ^ 64) (h : fromHex S hex = .ok b) :
    (b.texts.map List.length).sum + b.proof.commitment.length < 2 ^ 63 := by
  obtain ⟨raw, hraw, h⟩ := bind_eq_ok.mp h
  obtain ⟨root, hroot, h⟩ := bind_eq_ok.mp h
  have hhex := (length_of_fromHex hraw).trans (length_stripHexPrefix_le hex)
  have hsum := sum_length_of_decode (by omega) hroot
  have htexts := (of_ofDecoded h).2
  omega

/-- A block with nothing but a header. -/
def bare (b : Block) : Block where
  index := b.index
  prevHash := b.prevHash
  stateBefore := b.stateBefore
  stateAfter := b.stateAfter
  txRoot := b.txRoot
  proof := { commitment := b.proof.commitment }
  timestamp := b.timestamp

/-- It is encoded to its five texts and to strings whose size is known. -/
theorem exists_rlpEncode_bare (b : Block) :
    ∃ raw, b.bare.rlpEncode = .ok raw ∧
      raw.length ≤ (b.texts.map List.length).sum + b.proof.commitment.length + 1000 := by
  refine ⟨encodeList [encodeUint b.index, encodeBytes b.prevHash, encodeBytes b.stateBefore,
    encodeBytes b.stateAfter, encodeBytes b.txRoot, encodeBytes [],
    encodeBytes b.proof.commitment, encodeUint b.timestamp, encodeBytes [], encodeList [],
    encodeBytes Bloom.empty.bits.val, encodeList []], rfl, (length_encodeList_le _).trans ?_⟩
  have hindex := length_encodeUint_le b.index
  have htime := length_encodeUint_le b.timestamp
  have hprev := length_encodeBytes_le b.prevHash
  have hbefore := length_encodeBytes_le b.stateBefore
  have hafter := length_encodeBytes_le b.stateAfter
  have hroot := length_encodeBytes_le b.txRoot
  have hcommitment := length_encodeBytes_le b.proof.commitment
  have hbloom := length_encodeBytes_le Bloom.empty.bits.val
  rw [Bloom.empty.bits.property] at hbloom
  have hnil : (encodeBytes []).length = 1 ∧ (encodeList []).length = 1 := ⟨rfl, rfl⟩
  simp only [List.flatten_cons, List.flatten_nil, List.length_append, List.length_nil, texts,
    List.map_cons, List.map_nil, List.sum_cons, List.sum_nil]
  omega

/-- Every header without a root of the receipts comes from the wire. -/
theorem exists_fromHex (S : Secp256k1) {b : Block} (h : b.receiptsRoot = [])
    (hlen : (b.texts.map List.length).sum + b.proof.commitment.length < 2 ^ 63) :
    ∃ hex b',
      hex.length ≤ 2 * ((b.texts.map List.length).sum + b.proof.commitment.length) + 2002 ∧
      fromHex S hex = .ok b' ∧ b'.headerFields = b.headerFields := by
  obtain ⟨raw, hraw, hsize⟩ := exists_rlpEncode_bare b
  have hdecode := (fromHex_toHex S hraw (by omega)).trans (if_pos rfl)
  refine ⟨_, b.bare.onWire, ?_, hdecode, ?_⟩
  · rw [List.length_append, length_toHex]
    have hmark : (str "0x").length = 2 := rfl
    omega
  rw [headerFields, headerFields, h]
  rfl

/-- A header from the wire is determined by its text exactly when it is unambiguous. -/
theorem hashBinds_iff {S : Secp256k1} {hex : Str} {b : Block} (hlen : hex.length < 2 ^ 64)
    (h : fromHex S hex = .ok b) : b.HashBinds S ↔ b.Unambiguous := by
  have hreceipts := receiptsRoot_of_fromHex h
  have hsmall := length_texts_of_fromHex hlen h
  have htwo : 2 ≤ b.texts.length := by simp [texts]
  rw [unambiguous_iff, ← terminated_append_determines_iff htwo]
  constructor
  · intro hbinds gs last hgs htext
    match gs with
    | [prev, before, after, root] =>
      let other : Block :=
        { index := b.index, prevHash := prev, stateBefore := before, stateAfter := after
          txRoot := root, proof := { commitment := last }, timestamp := b.timestamp }
      have hsame : (other.texts.map List.length).sum + other.proof.commitment.length < 2 ^ 63 := by
        have hlength := congrArg List.length htext
        rw [List.length_append, List.length_append, length_terminated, length_terminated, hgs,
          List.length_cons, List.length_cons] at hlength
        show ([prev, before, after, root].map List.length).sum + last.length < 2 ^ 63
        omega
      obtain ⟨hex', b', -, h', hfields⟩ := exists_fromHex S rfl hsame
      have hother : other.hashText = b.hashText :=
        (hashText_eq_iff hreceipts rfl).mpr ⟨rfl, htext, rfl⟩
      have heq := hfields.symm.trans (hbinds hex' b' h' ((hashText_congr hfields).trans hother))
      obtain ⟨-, htexts, -, hlast, -⟩ := headerFields_eq_iff.mp heq
      exact ⟨htexts, hlast⟩
  · intro hdet hex' b' h' htext
    have hreceipts' := receiptsRoot_of_fromHex h'
    obtain ⟨hindex, hmiddle, htime⟩ := (hashText_eq_iff hreceipts hreceipts').mp htext
    obtain ⟨htexts, hlast⟩ := hdet b'.texts b'.proof.commitment rfl hmiddle
    rw [headerFields_eq_iff, hreceipts, hreceipts']
    exact ⟨hindex, htexts, rfl, hlast, htime⟩

end Block

/-! ### Proofs -/

namespace ZkProof

/-- The texts the commitment is over. -/
def texts (p : ZkProof) : List Str := [p.proof, p.stateBefore, p.stateAfter, p.txRoot]

/-- The text `ZkVerifier::verify` hashes. -/
def text (p : ZkProof) : Str := commitmentText p.proof p.stateBefore p.stateAfter p.txRoot

/-- No other proof has the text of `p`. -/
def CommitmentBinds (p : ZkProof) : Prop := ∀ p' : ZkProof, p'.text = p.text → p'.texts = p.texts

/-- No separator in a text. -/
def Unambiguous (p : ZkProof) : Prop := ∀ f ∈ p.texts, 124 ∉ f

theorem text_append_bar (p : ZkProof) : p.text ++ [124] = terminated 124 p.texts := by
  simp [text, commitmentText, texts, str_bar]

theorem commitmentBinds_iff (p : ZkProof) : p.CommitmentBinds ↔ p.Unambiguous := by
  have htwo : 2 ≤ p.texts.length := by simp [texts]
  rw [Unambiguous, ← terminated_determines_iff htwo]
  constructor
  · intro hbinds gs hgs htext
    match gs with
    | [proof, before, after, root] =>
      let p' : ZkProof := ⟨proof, before, after, root, []⟩
      have heq : p'.text ++ [124] = p.text ++ [124] := by
        rw [text_append_bar, text_append_bar]
        exact htext
      exact hbinds p' (List.append_cancel_right heq)
  · intro hdet p' htext
    apply hdet p'.texts rfl
    rw [← text_append_bar, ← text_append_bar, htext]

end ZkProof

/-- Hashes bind the header of a block from the wire, and commitments what a proof is over, exactly
when neither has a separator where it could be misread. -/
theorem hashes_bind_iff {S : Secp256k1} {hex : Str} {b : Block} (hlen : hex.length < 2 ^ 64)
    (h : Block.fromHex S hex = .ok b) (p : ZkProof) :
    b.HashBinds S ∧ p.CommitmentBinds ↔ b.Unambiguous ∧ p.Unambiguous :=
  and_congr (Block.hashBinds_iff hlen h) p.commitmentBinds_iff

/-- A header and a proof as the node itself makes them, from hexadecimal texts. -/
theorem hashes_bind_hex :
    let S := devSecp Transaction.sigChain1 Transaction.otherKeyChain1
    let p := ZkProver.generate (str "0x00") (str "0x01") (str "0x02")
    ∃ hex b, hex.length < 2 ^ 64 ∧ Block.fromHex S hex = .ok b ∧ b.txRoot = str "0x02" ∧
      b.HashBinds S ∧ p.CommitmentBinds := by
  intro S p
  have hcommitment : 124 ∉ p.commitment := bar_notMem_toHex _
  have hlast : p.commitment.length = 64 := by
    rw [show p.commitment = toHex (keccak256 _) from rfl, length_toHex, length_keccak256]
  have hp : p.Unambiguous := by
    refine List.forall_mem_cons.mpr ⟨bar_notMem_toHex _, ?_⟩
    show ∀ f ∈ [str "0x00", str "0x01", str "0x02"], 124 ∉ f
    decide
  -- Nothing else is needed of the proof, and its hashes are not worth computing.
  clear_value p
  let header : Block :=
    { prevHash := str "0x00", stateBefore := str "0x00", stateAfter := str "0x01"
      txRoot := str "0x02", proof := p }
  have htexts : (header.texts.map List.length).sum = 16 := rfl
  have hsmall : header.proof.commitment.length = 64 := hlast
  obtain ⟨hex, b, hlen, h, hb⟩ := Block.exists_fromHex S (b := header) rfl (by omega)
  have hhex : hex.length < 2 ^ 64 := by omega
  have heq := Block.headerFields_eq_iff.mp hb
  have hheader : b.Unambiguous := by
    rw [Block.unambiguous_iff, heq.2.1, heq.2.2.2.1]
    refine ⟨?_, not_pair_infix hcommitment⟩
    show ∀ f ∈ [str "0x00", str "0x00", str "0x01", str "0x02"], 124 ∉ f
    decide
  refine ⟨hex, b, hhex, h, ?_, (hashes_bind_iff hhex h p).mpr ⟨hheader, hp⟩⟩
  exact congrArg (fun f => f.2.2.2.2.1) hb

/-- A separator at the end of one text or at the start of the next: two blocks from the wire with
one hash, and two proofs with one commitment. -/
theorem hashes_do_not_bind :
    let S := devSecp Transaction.sigChain1 Transaction.otherKeyChain1
    (∃ hex hex' b b', Block.fromHex S hex = .ok b ∧ Block.fromHex S hex' = .ok b' ∧
      b.hashText = b'.hashText ∧ b.prevHash = str "a|" ∧ b'.prevHash = str "a") ∧
    ∃ p p' : ZkProof, p.text = p'.text ∧ p.proof = str "a|" ∧ p'.proof = str "a" := by
  intro S
  refine ⟨?_, ⟨str "a|", str "b", [], [], []⟩, ⟨str "a", str "|b", [], [], []⟩, rfl, rfl, rfl⟩
  let first : Block := { prevHash := str "a|", stateBefore := str "b" }
  let second : Block := { prevHash := str "a", stateBefore := str "|b" }
  obtain ⟨hex, b, -, h, hb⟩ := Block.exists_fromHex S (b := first) rfl (by decide)
  obtain ⟨hex', b', -, h', hb'⟩ := Block.exists_fromHex S (b := second) rfl (by decide)
  have htext : first.hashText = second.hashText :=
    (Block.hashText_eq_iff rfl rfl).mpr ⟨rfl, rfl, rfl⟩
  refine ⟨hex, hex', b, b', h, h', ?_, ?_, ?_⟩
  · rw [Block.hashText_congr hb, htext, Block.hashText_congr hb']
  · exact congrArg (fun f => f.2.1) hb
  · exact congrArg (fun f => f.2.1) hb'

end Gambit
