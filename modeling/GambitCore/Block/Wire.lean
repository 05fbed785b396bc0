import GambitCore.Block.Basic
import GambitCore.Transaction.Wire

/-!
# Blocks on the wire

What the decoders make of an encoded block. The encoder splices each signed transaction
into the list as a nested RLP list; the decoders read the byte string of each item, which
is empty for a list. So a block without transactions comes back, and any other is refused.

## Main definitions

* `Log.SameContents` — two logs say the same, the topics as bytes
* `Block.wireItem` — the tree `rlpEncode` encodes
* `Block.onWire` — the fields the decoders read back
* `Block.header` — the fields a block is compared by
* `Block.CarriesTransactions` — both round trips keep the transactions

## Main results

* `Receipt.sameContents_of_rlpEncode_eq` — receipts with equal encodings have the same contents
* `rlpDecode_rlpEncode`, `fromHex_toHex` — the decoders on an encoded block
* `header_rlpDecode_fromHex` — without transactions, both round trips keep the header
* `carriesTransactions_iff` — a block carries its transactions only when it has none
-/

namespace Gambit

open Rlp Codec

/-! ### Receipts -/

/-- The topic of every log is hexadecimal text. -/
def Receipt.TopicsAreHex (r : Receipt) : Prop :=
  ∀ log ∈ r.logs, ∀ t ∈ log.topics, Returns (fromHex t)

/-- The tree of a log: a list of its address, of the bytes of its topics, and of its data. -/
def Log.IsWireItem (log : Log) (t : Item) : Prop :=
  ∃ topics : List Bytes, log.topics.map fromHex = topics.map .ok ∧
    t = .list [.bytes log.address.bytes, .list (topics.map .bytes), .bytes log.data]

/-- The tree of a receipt, over the trees of its logs. -/
def Receipt.IsWireItem (r : Receipt) (t : Item) : Prop :=
  ∃ logs, List.Forall₂ Log.IsWireItem r.logs logs ∧
    t = .list [.bytes (bigEndian (if r.status then 1 else 0 : UInt64).toNat),
      .bytes (bigEndian r.cumulativeGasUsed.toNat), .list logs]

theorem Log.rlpEncode_item {log : Log} {raw : Bytes} (h : log.rlpEncode = .ok raw) :
    ∃ t, log.IsWireItem t ∧ raw = t.encode := by
  obtain ⟨topicBytes, htopics, hraw⟩ := bind_eq_ok.mp h
  obtain rfl := Except.ok.inj hraw
  have hstring : ∀ x y, (encodeBytes <$> fromHex x) = .ok y →
      ∃ b, fromHex x = .ok b ∧ y = encodeBytes b := by
    intro x y hy
    obtain ⟨b, hx, hb⟩ := map_eq_ok.mp hy
    exact ⟨b, hx, hb.symm⟩
  obtain ⟨topics, hbytes, rfl⟩ := exists_map_of_mapM hstring htopics
  refine ⟨_, ⟨topics, map_eq_map_ok hbytes, rfl⟩, ?_⟩
  have hitems : (topics.map Item.bytes).map Item.encode = topics.map encodeBytes := by
    rw [List.map_map]
    rfl
  simp only [Item.encode, Item.encodeEach, Item.encodeEach_eq_map, hitems]

theorem Receipt.rlpEncode_item {r : Receipt} {raw : Bytes} (h : r.rlpEncode = .ok raw) :
    ∃ t, r.IsWireItem t ∧ raw = t.encode := by
  obtain ⟨logItems, hlogs, hraw⟩ := bind_eq_ok.mp h
  obtain rfl := Except.ok.inj hraw
  obtain ⟨logs, htrees, rfl⟩ := exists_map_of_mapM (fun _ _ => Log.rlpEncode_item) hlogs
  refine ⟨_, ⟨logs, htrees, rfl⟩, ?_⟩
  simp [Item.encode, Item.encodeEach, Item.encodeEach_eq_map, encodeUint_eq]

theorem Log.returns_rlpEncode_iff (log : Log) :
    Returns log.rlpEncode ↔ ∀ t ∈ log.topics, Returns (fromHex t) := by
  have htopic (t : Str) : Returns (encodeBytes <$> fromHex t) ↔ Returns (fromHex t) :=
    returns_map_iff
  simp only [Log.rlpEncode, returns_bind_pure_iff, returns_mapM_iff, htopic]

theorem Receipt.returns_rlpEncode_iff (r : Receipt) : Returns r.rlpEncode ↔ r.TopicsAreHex := by
  simp only [Receipt.rlpEncode, returns_bind_pure_iff, returns_mapM_iff,
    Log.returns_rlpEncode_iff, Receipt.TopicsAreHex]

/-- The same address and data, and the same topics as bytes. -/
structure Log.SameContents (l m : Log) : Prop where
  address : l.address = m.address
  data : l.data = m.data
  topics : l.topics.map fromHex = m.topics.map fromHex

/-- A tree determines the log. -/
theorem Log.IsWireItem.sameContents {l m : Log} {t : Item} (hl : l.IsWireItem t)
    (hm : m.IsWireItem t) : l.SameContents m := by
  obtain ⟨ltopics, hltopics, rfl⟩ := hl
  obtain ⟨mtopics, hmtopics, heq⟩ := hm
  simp only [Item.list.injEq, List.cons.injEq, Item.bytes.injEq, and_true] at heq
  obtain ⟨haddress, htopics, hdata⟩ := heq
  have hbytes : ltopics = mtopics :=
    List.map_injective_iff.mpr (fun _ _ h => Item.bytes.inj h) htopics
  exact ⟨Address.ext haddress, hdata, by rw [hltopics, hmtopics, hbytes]⟩

theorem Log.forall₂_sameContents {ls ms : List Log} {ts : List Item}
    (hl : List.Forall₂ Log.IsWireItem ls ts) (hm : List.Forall₂ Log.IsWireItem ms ts) :
    List.Forall₂ Log.SameContents ls ms := by
  induction hl generalizing ms with
  | nil =>
    cases hm
    exact .nil
  | cons hhead _ ih =>
    cases hm with
    | cons hhead' htail' => exact .cons (hhead.sameContents hhead') (ih htail')

/-- The same status, gas and logs. -/
structure Receipt.SameContents (r s : Receipt) : Prop where
  status : r.status = s.status
  cumulativeGasUsed : r.cumulativeGasUsed = s.cumulativeGasUsed
  length_logs : r.logs.length = s.logs.length
  logs : List.Forall₂ Log.SameContents r.logs s.logs

/-- A tree determines the receipt. -/
theorem Receipt.IsWireItem.sameContents {r s : Receipt} {t : Item} (hr : r.IsWireItem t)
    (hs : s.IsWireItem t) : r.SameContents s := by
  obtain ⟨rlogs, hrlogs, rfl⟩ := hr
  obtain ⟨slogs, hslogs, heq⟩ := hs
  simp only [Item.list.injEq, List.cons.injEq, Item.bytes.injEq, bigEndian_inj, and_true] at heq
  obtain ⟨hstatus, hgas, rfl⟩ := heq
  have hlogs := Log.forall₂_sameContents hrlogs hslogs
  have hbool : ∀ b c : Bool, (if b then 1 else 0 : UInt64) = (if c then 1 else 0) → b = c := by
    decide
  exact ⟨hbool _ _ hstatus, hgas, hlogs.length_eq, hlogs⟩

/-- Receipts whose topics are hexadecimal text are encoded, and if the bytes are the same, so are
the contents. -/
theorem Receipt.sameContents_of_rlpEncode_eq {r s : Receipt} (hr : r.TopicsAreHex)
    (hs : s.TopicsAreHex) :
    ∃ rraw sraw, r.rlpEncode = .ok rraw ∧ s.rlpEncode = .ok sraw ∧
      (rraw.length < 2 ^ 64 → rraw = sraw → r.SameContents s) := by
  obtain ⟨rraw, hrraw⟩ := r.returns_rlpEncode_iff.mpr hr
  obtain ⟨sraw, hsraw⟩ := s.returns_rlpEncode_iff.mpr hs
  refine ⟨rraw, sraw, hrraw, hsraw, fun hlen heq => ?_⟩
  obtain ⟨t, ht, rfl⟩ := Receipt.rlpEncode_item hrraw
  obtain ⟨u, hu, rfl⟩ := Receipt.rlpEncode_item hsraw
  obtain rfl := Item.encode_injective hlen heq
  exact ht.sameContents hu

/-- A receipt with one log of one topic. -/
def topicReceipt (topic : Str) : Receipt :=
  { cumulativeGasUsed := 21000
    logs := [{ address := Address.zero, topics := [topic], data := [1] }] }

/-- Two texts of one topic. -/
theorem Receipt.sameContents_topicReceipt :
    (topicReceipt (str "0xAb")).TopicsAreHex ∧ (topicReceipt (str "ab")).TopicsAreHex ∧
      (topicReceipt (str "0xAb")).SameContents (topicReceipt (str "ab")) := by
  have htopic (topic : Str) (h : Returns (fromHex topic)) : (topicReceipt topic).TopicsAreHex := by
    simpa [topicReceipt, Receipt.TopicsAreHex] using h
  have hr := htopic (str "0xAb") ⟨[0xAB], rfl⟩
  have hs := htopic (str "ab") ⟨[0xAB], rfl⟩
  obtain ⟨rraw, sraw, hrraw, hsraw, hsame⟩ := Receipt.sameContents_of_rlpEncode_eq hr hs
  obtain rfl := Except.ok.inj hrraw
  obtain rfl := Except.ok.inj hsraw
  exact ⟨hr, hs, hsame (by decide +kernel) (by decide +kernel)⟩

/-! ### The decoders -/

namespace Block

/-- The tree `rlpEncode` encodes, over the trees of the receipts. -/
def wireItem (b : Block) (receipts : List Item) : Item :=
  .list
    [.bytes (bigEndian b.index.toNat), .bytes b.prevHash, .bytes b.stateBefore,
      .bytes b.stateAfter, .bytes b.txRoot, .bytes b.proof.proof, .bytes b.proof.commitment,
      .bytes (bigEndian b.timestamp.toNat), .bytes b.hash,
      .list (b.transactions.map Transaction.signedItem), .bytes b.logsBloom.bits.val,
      .list receipts]

theorem rlpEncode_item {b : Block} {raw : Bytes} (h : b.rlpEncode = .ok raw) :
    ∃ receipts, raw = (b.wireItem receipts).encode := by
  obtain ⟨rcItems, hrc, hraw⟩ := bind_eq_ok.mp h
  obtain rfl := Except.ok.inj hraw
  obtain ⟨receipts, -, rfl⟩ := exists_map_of_mapM (fun _ _ => Receipt.rlpEncode_item) hrc
  refine ⟨receipts, ?_⟩
  have htxs : b.transactions.map Transaction.rlpEncodeSigned =
      (b.transactions.map Transaction.signedItem).map Item.encode := by
    rw [List.map_map]
    exact List.map_congr_left fun tx _ => tx.rlpEncodeSigned_eq
  simp [wireItem, Item.encode, Item.encodeEach, Item.encodeEach_eq_map, encodeUint_eq,
    encodeString, htxs]

theorem returns_rlpEncode_iff (b : Block) :
    Returns b.rlpEncode ↔ ∀ r ∈ b.receipts, r.TopicsAreHex := by
  simp only [rlpEncode, returns_bind_pure_iff, returns_mapM_iff, Receipt.returns_rlpEncode_iff]

/-- The fields of a block without transactions that the decoders read back. -/
def onWire (b : Block) : Block where
  index := b.index
  prevHash := b.prevHash
  stateBefore := b.stateBefore
  stateAfter := b.stateAfter
  txRoot := b.txRoot
  proof := { proof := b.proof.proof, commitment := b.proof.commitment }
  timestamp := b.timestamp
  hash := b.hash

/-- The byte string of a nested transaction is empty, and so is no transaction. -/
theorem fromHex_nested (S : Secp256k1) (tx : Transaction) :
    Transaction.fromHex S (str "0x" ++ Gambit.toHex tx.signedItem.toDecoded.bytes) =
      runtimeError "RLP decode overflow" := rfl

/-- Behind `rlp::decode` an encoded block comes back when it has no transactions; with the
first transaction the decoder throws. -/
theorem ofDecoded_wireItem (S : Secp256k1) (badBlock badTxs : String) (b : Block)
    (receipts : List Item) :
    ofDecoded S badBlock badTxs (b.wireItem receipts).toDecoded =
      if b.transactions = [] then .ok b.onWire else runtimeError "RLP decode overflow" := by
  simp only [wireItem, Item.toDecoded, Item.toDecodedEach, ofDecoded, toUint_bigEndian,
    Item.toDecodedEach_eq_map, List.map_map, Bool.not_true, Bool.false_eq_true, if_false]
  cases b.transactions with
  | nil => rfl
  -- The loop already ends at the first transaction.
  | cons tx txs =>
    rw [List.map_cons, List.mapM_cons, Function.comp_apply, fromHex_nested]
    rfl

theorem rlpDecode_rlpEncode (S : Secp256k1) {b : Block} {raw : Bytes} (h : b.rlpEncode = .ok raw)
    (hlen : raw.length < 2 ^ 64) :
    rlpDecode S raw =
      if b.transactions = [] then .ok b.onWire else runtimeError "RLP decode overflow" := by
  obtain ⟨receipts, rfl⟩ := rlpEncode_item h
  simp only [rlpDecode, decode_encode _ hlen, bind, Except.bind, ofDecoded_wireItem]

theorem fromHex_toHex (S : Secp256k1) {b : Block} {raw : Bytes} (h : b.rlpEncode = .ok raw)
    (hlen : raw.length < 2 ^ 64) :
    fromHex S (str "0x" ++ Gambit.toHex raw) =
      if b.transactions = [] then .ok b.onWire else runtimeError "RLP decode overflow" := by
  obtain ⟨receipts, rfl⟩ := rlpEncode_item h
  simp only [fromHex, stripHexPrefix_prefixed, Gambit.fromHex_toHex, decode_encode _ hlen, bind,
    Except.bind, ofDecoded_wireItem]

theorem toHex_of_rlpEncode {b : Block} {raw : Bytes} (h : b.rlpEncode = .ok raw) :
    b.toHex = .ok (str "0x" ++ Gambit.toHex raw) := by
  simp only [toHex, h, bind, pure, Except.bind, Except.pure]

/-! ### Headers across the wire -/

/-- The fields a block is compared by, its transactions, receipts and bloom apart. -/
def header (b : Block) : UInt64 × Str × Str × Str × Str × Bytes × Bytes × UInt64 × Str :=
  (b.index, b.prevHash, b.stateBefore, b.stateAfter, b.txRoot, b.proof.proof, b.proof.commitment,
    b.timestamp, b.hash)

theorem header_onWire (b : Block) : b.onWire.header = b.header := rfl

theorem transactions_onWire (b : Block) : b.onWire.transactions = [] := rfl

/-- The header of a block without transactions survives both the binary and the hexadecimal form,
whatever its strings, receipts and bloom are. -/
theorem header_rlpDecode_fromHex (S : Secp256k1) {b : Block} (htxs : b.transactions = [])
    {raw : Bytes} (henc : b.rlpEncode = .ok raw) (hlen : raw.length < 2 ^ 64) :
    ∃ text decoded received,
      b.toHex = .ok text ∧ rlpDecode S raw = .ok decoded ∧ fromHex S text = .ok received ∧
      decoded.header = b.header ∧ decoded.transactions = [] ∧
      received.header = b.header ∧ received.transactions = [] := by
  refine ⟨_, b.onWire, b.onWire, toHex_of_rlpEncode henc, ?_, ?_, b.header_onWire,
    b.transactions_onWire, b.header_onWire, b.transactions_onWire⟩
  · rw [rlpDecode_rlpEncode S henc hlen, if_pos htxs]
  · rw [fromHex_toHex S henc hlen, if_pos htxs]

/-- A block without transactions, with one receipt and strings that are no hexadecimal text. -/
def headerBlock : Block :=
  { index := 1000
    prevHash := [0, 255]
    stateAfter := str "GENESIS"
    proof := { proof := [1], commitment := [] }
    timestamp := 1700000000
    receipts := [{ status := true, cumulativeGasUsed := 21000, logs := [] }] }

theorem headerBlock_rlpDecode_fromHex :
    headerBlock.transactions = [] ∧
      ∃ raw text decoded received,
        headerBlock.rlpEncode = .ok raw ∧ raw.length < 2 ^ 64 ∧ headerBlock.toHex = .ok text ∧
        rlpDecode (devSecp Transaction.sigChain1 Transaction.otherKeyChain1) raw = .ok decoded ∧
        fromHex (devSecp Transaction.sigChain1 Transaction.otherKeyChain1) text = .ok received ∧
        decoded.header = headerBlock.header ∧ decoded.transactions = [] ∧
        received.header = headerBlock.header ∧ received.transactions = [] := by
  obtain ⟨raw, henc⟩ := headerBlock.returns_rlpEncode_iff.mpr
    (by simp [headerBlock, Receipt.TopicsAreHex])
  have hlen : raw.length < 2 ^ 64 := by
    obtain rfl := Except.ok.inj henc
    decide +kernel
  obtain ⟨text, decoded, received, hall⟩ := header_rlpDecode_fromHex
    (devSecp Transaction.sigChain1 Transaction.otherKeyChain1) rfl henc hlen
  exact ⟨rfl, raw, text, decoded, received, henc, hlen, hall⟩

/-! ### Transactions across the wire -/

/-- What a received transaction is compared by. -/
def payload (tx : Transaction) :
    UInt64 × UInt64 × UInt64 × Address × UInt64 × Bytes × UInt64 × Address :=
  (tx.nonce, tx.gasPrice, tx.gasLimit, tx.to_, tx.value, tx.data, tx.chainId, tx.from_)

/-- Both round trips of a block succeed and keep its transactions, in order. -/
def CarriesTransactions (S : Secp256k1) (b : Block) : Prop :=
  ∃ raw text decoded received,
    b.rlpEncode = .ok raw ∧ rlpDecode S raw = .ok decoded ∧
    b.toHex = .ok text ∧ fromHex S text = .ok received ∧
    decoded.transactions.map payload = b.transactions.map payload ∧
    received.transactions.map payload = b.transactions.map payload

theorem not_carriesTransactions {S : Secp256k1} {b : Block}
    (hlen : ∀ raw, b.rlpEncode = .ok raw → raw.length < 2 ^ 64) (htxs : b.transactions ≠ []) :
    ¬ b.CarriesTransactions S := by
  rintro ⟨raw, -, decoded, -, henc, hdec, -⟩
  rw [rlpDecode_rlpEncode S henc (hlen raw henc), if_neg htxs] at hdec
  cases hdec

/-- A block carries its transactions across the wire exactly when it has none and the
topics of its receipts can be encoded. -/
theorem carriesTransactions_iff (S : Secp256k1) (b : Block)
    (hlen : ∀ raw, b.rlpEncode = .ok raw → raw.length < 2 ^ 64) :
    b.CarriesTransactions S ↔ b.transactions = [] ∧ ∀ r ∈ b.receipts, r.TopicsAreHex := by
  rw [← returns_rlpEncode_iff]
  constructor
  · intro h
    -- The first decoder already fails on a block with transactions.
    refine ⟨by_contra fun htxs => not_carriesTransactions hlen htxs h, ?_⟩
    obtain ⟨raw, -, -, -, henc, -⟩ := h
    exact ⟨raw, henc⟩
  · rintro ⟨htxs, raw, henc⟩
    refine ⟨raw, str "0x" ++ Gambit.toHex raw, b.onWire, b.onWire, henc, ?_, ?_, ?_, ?_, ?_⟩
    · rw [rlpDecode_rlpEncode S henc (hlen raw henc), if_pos htxs]
    · exact toHex_of_rlpEncode henc
    · rw [fromHex_toHex S henc (hlen raw henc), if_pos htxs]
    · rw [htxs]
      rfl
    · rw [htxs]
      rfl

/-- A block without transactions and with a log of two topics. -/
def loggedBlock : Block :=
  { headerBlock with
    receipts := [{ cumulativeGasUsed := 21000 },
      { cumulativeGasUsed := 51000
        logs := [{ address := ⟨List.replicate 20 7, rfl⟩
                   topics := [str "0xddf252ad", str "C0FFEE"]
                   data := [1, 2, 3] }] }] }

theorem topicsAreHex_loggedBlock : ∀ r ∈ loggedBlock.receipts, r.TopicsAreHex := by
  have hfirst : Gambit.fromHex (str "0xddf252ad") = .ok [0xdd, 0xf2, 0x52, 0xad] := rfl
  have hsecond : Gambit.fromHex (str "C0FFEE") = .ok [0xC0, 0xFF, 0xEE] := rfl
  simp [loggedBlock, Receipt.TopicsAreHex, Returns, hfirst, hsecond]

theorem carriesTransactions_loggedBlock :
    loggedBlock.CarriesTransactions
      (devSecp Transaction.sigChain1 Transaction.otherKeyChain1) := by
  refine (carriesTransactions_iff _ _ fun raw h => ?_).mpr ⟨rfl, topicsAreHex_loggedBlock⟩
  obtain rfl := Except.ok.inj h
  decide +kernel

/-- A block with one transfer of the development key. -/
def devBlock : Block := { transactions := [Transaction.devSigned Transaction.sigChain1 1] }

theorem length_rlpEncode_devBlock (raw : Bytes) (h : devBlock.rlpEncode = .ok raw) :
    raw.length < 2 ^ 64 := by
  obtain rfl := Except.ok.inj h
  decide +kernel

/-- A block with one properly signed transfer does not come through. -/
theorem devBlock_not_carriesTransactions :
    let S := devSecp Transaction.sigChain1 Transaction.otherKeyChain1
    S.Sound ∧
      (Transaction.devTx 1).signWith (devKeyPair Transaction.sigChain1 Transaction.otherKeyChain1) =
        .ok (Transaction.devSigned Transaction.sigChain1 1) ∧
      (Transaction.devSigned Transaction.sigChain1 1).sig.v = 0 ∧
      ¬ devBlock.CarriesTransactions S :=
  ⟨devSecp_sound, Transaction.devTx_signWith _ _ 1, by decide,
    not_carriesTransactions length_rlpEncode_devBlock (by simp [devBlock])⟩

end Block

end Gambit
