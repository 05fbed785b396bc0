import GambitCore.P2p
import GambitCore.P2p.Peer

/-!
# What arrives over a connection

`P2PNode::onMessage` and the two broadcasts of `p2p_node.cpp`, over a connection that may break at
any byte. `Peer::recvLoop` hands on a frame that was cut off inside its payload, with zeros for the
bytes that did not come. The handlers read their payload as hexadecimal text, in which a zero byte
has no place, so such a frame changes nothing: a node that loses a connection is where the whole
messages before the break have taken it.

## Main definitions

* `onMessage`, `Broadcast`
* `Message.torn` — a frame of which only part of the payload came
* `tornTail` — what the loop hands on behind the last whole message

## Main results

* `Peer.recvLoop_take_flatMap` — the loop hands on the whole messages, and at most one torn one
* `cut_connection_safe` — the torn one changes nothing
-/

namespace Gambit

/-- `P2PNode::onMessage`. -/
def onMessage (S : Secp256k1) (bc : Blockchain) (msg : Message) : Blockchain :=
  match msg.type with
  | .newTx => handleNewTx S bc msg.payload
  | .newBlock => handleNewBlock S bc msg.payload
  | _ => bc

/-- What `broadcastNewTx` and `broadcastNewBlock` send. -/
inductive Broadcast : Message → Prop
  | newTx (tx : Transaction) : Broadcast ⟨.newTx, tx.toHex⟩
  | newBlock {block : Block} {hex : Str} (h : block.toHex = .ok hex) : Broadcast ⟨.newBlock, hex⟩

theorem Broadcast.payload_ne_nil {msg : Message} (h : Broadcast msg) : msg.payload ≠ [] := by
  cases h with
  | newTx tx => simp [Transaction.toHex, str]
  | newBlock hhex =>
    obtain ⟨raw, -, rfl⟩ := toHex_eq_ok hhex
    simp [str]

/-! ### Torn frames -/

/-- What the loop makes of a frame when `n` bytes of its payload came. -/
def Message.torn (msg : Message) (n : ℕ) : Message :=
  ⟨msg.type, Peer.overwrite (List.replicate msg.payload.length 0) (msg.payload.take n)⟩

/-- A torn frame has a zero where the payload broke off. -/
theorem Message.zero_mem_torn {msg : Message} {n : ℕ} (h : n < msg.payload.length) :
    0 ∈ (msg.torn n).payload := by
  rw [torn, Peer.overwrite, List.length_take, Nat.min_eq_left h.le, List.drop_replicate]
  exact List.mem_append_right _ (List.mem_replicate.mpr ⟨by omega, rfl⟩)

/-- A zero byte is no part of a mark, and stays when the mark is taken off. -/
theorem zero_mem_stripHexPrefix {text : Str} (h : 0 ∈ text) : 0 ∈ stripHexPrefix text := by
  have hmark : (0 : UInt8) ∉ str "0x" ∧ (0 : UInt8) ∉ str "0X" := by decide
  rcases stripHexPrefix_cases text with heq | heq | heq
  · rwa [← heq]
  · rw [heq] at h
    exact (List.mem_append.mp h).resolve_left hmark.1
  · rw [heq] at h
    exact (List.mem_append.mp h).resolve_left hmark.2

/-- A text with a zero byte is refused by the hexadecimal decoder. -/
theorem fromHex_of_zero_mem {text : Str} (h : 0 ∈ text) : ∃ e, fromHex text = .error e := by
  cases hresult : fromHex text with
  | error e => exact ⟨e, rfl⟩
  | ok out =>
    have hzero : Codec.isDigit 16 (0 : UInt8) = false := by decide
    obtain ⟨digits, hdigits⟩ := returns_fromHex_iff.mp ⟨out, hresult⟩
    have hmem := zero_mem_stripHexPrefix h
    rw [hdigits.stripHexPrefix_eq] at hmem
    have hdigit := hdigits.isDigit 0 hmem
    rw [hzero] at hdigit
    cases hdigit

/-- Neither a transaction nor a block is read from a payload that has a zero byte. -/
theorem fromHex_payload_of_zero_mem (S : Secp256k1) {payload : Bytes} (h : 0 ∈ payload) :
    ∃ e, Transaction.fromHex S payload = .error e ∧ Block.fromHex S payload = .error e := by
  obtain ⟨e, herror⟩ := fromHex_of_zero_mem (zero_mem_stripHexPrefix h)
  refine ⟨e, ?_, ?_⟩
  · rw [Transaction.fromHex, herror]
    rfl
  · rw [Block.fromHex, herror]
    rfl

theorem onMessage_of_zero_mem (S : Secp256k1) (bc : Blockchain) {msg : Message}
    (h : 0 ∈ msg.payload) : onMessage S bc msg = bc := by
  obtain ⟨e, htx, hblock⟩ := fromHex_payload_of_zero_mem S h
  unfold onMessage
  split
  · rw [handleNewTx, htx]
  · exact handleNewBlock_of_error hblock
  · rfl

/-! ### A connection that breaks -/

/-- What the loop hands on behind the whole messages: the frame the cut falls into, if some of its
payload came. -/
def tornTail : List Message → ℕ → List Message
  | [], _ => []
  | msg :: msgs, cut =>
    if msg.encode.length ≤ cut then tornTail msgs (cut - msg.encode.length)
    else if 5 < cut then [msg.torn (cut - 5)]
    else []

theorem complete_isPrefix (msgs : List Message) (cut : ℕ) : complete msgs cut <+: msgs := by
  induction msgs generalizing cut with
  | nil => exact List.nil_prefix
  | cons msg msgs ih =>
    rw [complete]
    split
    · rw [List.prefix_cons_inj]
      exact ih _
    · exact List.nil_prefix

/-- Behind the whole messages comes at most a torn one. -/
theorem exists_torn_of_mem_tornTail {msgs : List Message} {cut : ℕ} {msg : Message}
    (h : msg ∈ tornTail msgs cut) :
    ∃ sent ∈ msgs, ∃ n < sent.payload.length, msg = sent.torn n := by
  induction msgs generalizing cut with
  | nil => cases h
  | cons first msgs ih =>
    rw [tornTail] at h
    split at h
    · obtain ⟨sent, hsent, n, hn, heq⟩ := ih h
      exact ⟨sent, List.mem_cons_of_mem _ hsent, n, hn, heq⟩
    · next hcut =>
      split at h
      · rw [Message.length_encode] at hcut
        exact ⟨first, List.mem_cons_self, cut - 5, by omega, List.mem_singleton.mp h⟩
      · cases h

/-- The round that reads the frame the cut falls into is the last one. -/
theorem Peer.recvLoop_take_of_torn (stale : ℕ → FixedBytes 5) (round : ℕ) {msg : Message} {cut : ℕ}
    (hne : msg.payload ≠ []) (hlen : msg.payload.length < 2 ^ 32) (hcut : 5 < cut)
    (htorn : cut < msg.encode.length) (tail : Bytes) :
    recvLoop stale round ((msg.encode ++ tail).take cut) = [msg.torn (cut - 5)] := by
  rw [Message.length_encode] at htorn
  have hpart : (msg.payload ++ tail).take (cut - 5) = msg.payload.take (cut - 5) :=
    List.take_append_of_le_length (by omega)
  have hall :
      (msg.payload.take (cut - 5)).take msg.payload.length = msg.payload.take (cut - 5) := by
    rw [List.take_take, Nat.min_eq_right (by omega)]
  have hgot : msg.payload.take (cut - 5) ≠ [] := by
    rw [ne_eq, List.take_eq_nil_iff, not_or]
    exact ⟨by omega, hne⟩
  -- The payload took all that came, so the next round finds no header.
  have hrest : ((msg.payload.take (cut - 5)).drop msg.payload.length).length ≤ 5 := by
    rw [List.length_drop, List.length_take]
    omega
  rw [take_encode_append msg tail hcut, recvLoop_frameHeader, Message.toNat_announced hlen, hpart,
    hall, if_neg hgot, recvLoop_of_length_le stale _ hrest, Message.torn]

/-- On a connection that breaks, the loop hands on the messages that came whole and then at most one
torn frame. -/
theorem Peer.recvLoop_take_flatMap (stale : ℕ → FixedBytes 5) (round : ℕ) {msgs : List Message}
    (h : ∀ msg ∈ msgs, msg.payload ≠ [] ∧ msg.payload.length < 2 ^ 32) (cut : ℕ) :
    recvLoop stale round ((msgs.flatMap Message.encode).take cut) =
      complete msgs cut ++ tornTail msgs cut := by
  induction msgs generalizing round cut with
  | nil => exact recvLoop_of_length_le stale round (by simp)
  | cons msg msgs ih =>
    obtain ⟨⟨hne, hlen⟩, hmsgs⟩ := List.forall_mem_cons.mp h
    rw [List.flatMap_cons, complete, tornTail]
    -- The cut is behind the frame, inside its payload, or at its header.
    by_cases hfits : msg.encode.length ≤ cut
    · rw [recvLoop_take_of_fits stale round hne hlen hfits, ih (round + 1) hmsgs, if_pos hfits,
        if_pos hfits, List.cons_append]
    · rw [if_neg hfits, if_neg hfits, List.nil_append]
      by_cases hcut : 5 < cut
      · rw [if_pos hcut, recvLoop_take_of_torn stale round hne hlen hcut (by omega)]
      · rw [if_neg hcut, recvLoop_take_of_stops stale round (.inl (by omega))]

/-- Messages that change nothing can be left out. -/
theorem foldl_onMessage_of_torn (S : Secp256k1) (bc : Blockchain) {msgs : List Message}
    (h : ∀ msg ∈ msgs, 0 ∈ msg.payload) : msgs.foldl (onMessage S) bc = bc := by
  induction msgs with
  | nil => rfl
  | cons msg msgs ih =>
    obtain ⟨hmsg, hmsgs⟩ := List.forall_mem_cons.mp h
    rw [List.foldl_cons, onMessage_of_zero_mem S bc hmsg, ih hmsgs]

/-- Wherever a connection breaks, the receiver is where the messages that came whole have taken it,
and these are the first ones that were sent. -/
theorem cut_connection_safe (S : Secp256k1) (bc : Blockchain) (stale : ℕ → FixedBytes 5)
    {msgs : List Message} (h : ∀ msg ∈ msgs, Broadcast msg ∧ msg.payload.length < 2 ^ 32)
    (cut : ℕ) :
    complete msgs cut <+: msgs ∧
      (Peer.recvLoop stale 0 ((msgs.foldl Peer.send []).take cut)).foldl (onMessage S) bc =
        (complete msgs cut).foldl (onMessage S) bc := by
  refine ⟨complete_isPrefix msgs cut, ?_⟩
  rw [Peer.foldl_send, List.nil_append, Peer.recvLoop_take_flatMap stale 0 (fun msg hmsg =>
    ⟨(h msg hmsg).1.payload_ne_nil, (h msg hmsg).2⟩), List.foldl_append]
  apply foldl_onMessage_of_torn
  intro msg hmsg
  obtain ⟨sent, -, n, hn, rfl⟩ := exists_torn_of_mem_tornTail hmsg
  exact Message.zero_mem_torn hn

/-- A transaction is sent twice, and the connection breaks inside the second frame. -/
theorem cut_connection_safe_two :
    let msg : Message := ⟨.newTx, ({} : Transaction).toHex⟩
    (Peer.recvLoop (fun _ => ⟨[0, 0, 0, 0, 0], rfl⟩) 0
        (([msg, msg].foldl Peer.send []).take (msg.encode.length + 7))).foldl
          (onMessage (devSecp Transaction.sigChain1 Transaction.otherKeyChain1)) freshChain =
      (complete [msg, msg] (msg.encode.length + 7)).foldl
        (onMessage (devSecp Transaction.sigChain1 Transaction.otherKeyChain1)) freshChain := by
  intro msg
  refine (cut_connection_safe _ freshChain _ (fun m hm => ?_) _).2
  obtain rfl : m = msg := by simpa using hm
  exact ⟨.newTx {}, by decide +kernel⟩

end Gambit
