import GambitCore.P2p.Message
import Mathlib.Data.List.TakeWhile

/-!
# What a peer receives

`Peer::recvLoop` of `p2p_peer.cpp` reads a header and a payload in turn until a read returns
nothing, and hands each payload to the handler. The same test, `n <= 0`, follows both reads. After
the payload it is wrong in two ways:

* a payload of no bytes is a read that returns nothing, so the loop ends at the first empty message;
* a payload that was cut short is a read that returns something, so it is handed on with zeros in
  the place of the bytes that did not come.

A stream is the bytes that come before the remote closes. On a stream that stays open the loop waits
where it finds the end here, and has handed on the same messages.

## Main definitions

* `Peer.send`, `Peer.recvLoop`
* `complete` — the messages whose frames lie before a cut
* `Torn` — the cut falls into a payload the loop reads

## Main results

* `Peer.recvLoop_delivers_iff` — a sequence arrives exactly when it has no empty payload
* `Peer.recvLoop_genuine_iff` — only whole messages arrive exactly when the cut tears none
-/

namespace Gambit

namespace Peer

/-- `Peer::send`: the whole buffer is written. -/
def send (stream : Bytes) (msg : Message) : Bytes := stream ++ msg.encode

/-- `recv` with `MSG_WAITALL`: the bytes that came, and the stream behind them. -/
def recv (stream : Bytes) (n : ℕ) : Bytes × Bytes := (stream.take n, stream.drop n)

/-- A buffer after some bytes were written to its front. -/
def overwrite (buffer got : Bytes) : Bytes := got ++ buffer.drop got.length

theorem length_recv_le (stream : Bytes) (n : ℕ) : (recv stream n).2.length ≤ stream.length := by
  rw [recv, List.length_drop]
  exact Nat.sub_le ..

theorem length_recv_lt {stream : Bytes} {n : ℕ} (h : (recv stream n).1 ≠ []) :
    (recv stream n).2.length < stream.length := by
  have hgot : 0 < (stream.take n).length := List.length_pos_of_ne_nil h
  have hsum : (stream.take n).length + (stream.drop n).length = stream.length := by
    rw [← List.length_append, List.take_append_drop]
  exact show (stream.drop n).length < _ by omega

theorem length_overwrite {buffer got : Bytes} (h : got.length ≤ buffer.length) :
    (overwrite buffer got).length = buffer.length := by
  rw [overwrite, List.length_append, List.length_drop]
  omega

theorem overwrite_of_length_eq {buffer got : Bytes} (h : got.length = buffer.length) :
    overwrite buffer got = got := by
  rw [overwrite, h, List.drop_length, List.append_nil]

/-- `Peer::recvLoop`, as the messages it hands to `handler_`. The header buffer is not initialised:
`stale` says what it holds in each round. The payload buffer is filled with zeros. -/
def recvLoop (stale : ℕ → FixedBytes 5) (round : ℕ) (stream : Bytes) : List Message :=
  let read := recv stream 5
  if h : read.1 = [] then []
  else
    let header := overwrite (stale round).1 read.1
    let len := headerLen header
    let body := recv read.2 len.toNat
    if body.1 = [] then []
    else
      ⟨.ofByte (header.getD 0 0), overwrite (List.replicate len.toNat 0) body.1⟩ ::
        recvLoop stale (round + 1) body.2
termination_by stream.length
decreasing_by exact Nat.lt_of_le_of_lt (length_recv_le ..) (length_recv_lt h)

variable (stale : ℕ → FixedBytes 5) (round : ℕ)

/-- With five bytes or less there is nothing left for a payload. -/
theorem recvLoop_of_length_le {stream : Bytes} (h : stream.length ≤ 5) :
    recvLoop stale round stream = [] := by
  have hrest : (recv stream 5).2 = [] := List.drop_eq_nil_of_le h
  rw [recvLoop]
  split
  · rfl
  · rw [hrest]
    simp [recv]

/-- One round on a header that came whole. -/
theorem recvLoop_frameHeader (type : MessageType) (len : UInt32) (tail : Bytes) :
    recvLoop stale round (frameHeader type len ++ tail) =
      if tail.take len.toNat = [] then []
      else
        ⟨type, overwrite (List.replicate len.toNat 0) (tail.take len.toNat)⟩ ::
          recvLoop stale (round + 1) (tail.drop len.toNat) := by
  have hread : recv (frameHeader type len ++ tail) 5 = (frameHeader type len, tail) := rfl
  have hne : frameHeader type len ≠ [] := List.cons_ne_nil _ _
  have hheader : overwrite (stale round).1 (frameHeader type len) = frameHeader type len :=
    overwrite_of_length_eq (stale round).2.symm
  have htype : (frameHeader type len).getD 0 0 = type.toByte := rfl
  rw [recvLoop, hread]
  dsimp only
  rw [dif_neg hne, hheader, headerLen_frameHeader, htype,
    MessageType.ofByte_toByte]
  rfl

/-- A whole frame is handed on, unless its payload is empty. -/
theorem recvLoop_encode {msg : Message} (h : msg.payload.length < 2 ^ 32) (tail : Bytes) :
    recvLoop stale round (msg.encode ++ tail) =
      if msg.payload = [] then [] else msg :: recvLoop stale (round + 1) tail := by
  have htake : (msg.payload ++ tail).take msg.payload.length = msg.payload := List.take_left
  have hdrop : (msg.payload ++ tail).drop msg.payload.length = tail := List.drop_left
  rw [Message.encode, List.append_assoc, recvLoop_frameHeader, Message.toNat_announced h, htake,
    hdrop, overwrite_of_length_eq (by rw [List.length_replicate])]

/-! ### A stream that is read to its end -/

/-- What a sequence of `Peer::send` calls writes. -/
theorem foldl_send (stream : Bytes) (msgs : List Message) :
    msgs.foldl send stream = stream ++ msgs.flatMap Message.encode := by
  induction msgs generalizing stream with
  | nil => simp
  | cons msg msgs ih => rw [List.foldl_cons, ih, send, List.flatMap_cons, List.append_assoc]

/-- The messages up to the first empty payload are handed on. -/
theorem recvLoop_flatMap_encode {msgs : List Message}
    (h : ∀ msg ∈ msgs, msg.payload.length < 2 ^ 32) :
    recvLoop stale round (msgs.flatMap Message.encode) = msgs.takeWhile (·.payload ≠ []) := by
  induction msgs generalizing round with
  | nil => exact recvLoop_of_length_le stale round (Nat.zero_le _)
  | cons msg msgs ih =>
    obtain ⟨hmsg, hmsgs⟩ := List.forall_mem_cons.mp h
    rw [List.flatMap_cons, recvLoop_encode stale round hmsg, ih (round + 1) hmsgs,
      List.takeWhile_cons]
    by_cases hempty : msg.payload = []
    · simp [hempty]
    · simp [hempty]

/-- A sequence of messages arrives exactly when none of them has an empty payload. -/
theorem recvLoop_delivers_iff (msgs : List Message)
    (h : ∀ msg ∈ msgs, msg.payload.length < 2 ^ 32) :
    recvLoop stale round (msgs.foldl send []) = msgs ↔ ∀ msg ∈ msgs, msg.payload ≠ [] := by
  rw [foldl_send, List.nil_append, recvLoop_flatMap_encode stale round h,
    List.takeWhile_eq_self_iff]
  simp only [decide_eq_true_eq]

/-- A transaction and a block arrive. -/
theorem recvLoop_delivers_two :
    recvLoop (fun _ => ⟨[0, 0, 0, 0, 0], rfl⟩) 0
        ([⟨.newTx, [1]⟩, ⟨.newBlock, [2, 3]⟩].foldl send []) =
      [⟨.newTx, [1]⟩, ⟨.newBlock, [2, 3]⟩] :=
  (recvLoop_delivers_iff _ 0 _ (by decide)).mpr (by decide)

/-- A ping without a payload is lost, with the transaction behind it. -/
theorem recvLoop_loses_ping :
    recvLoop (fun _ => ⟨[0, 0, 0, 0, 0], rfl⟩) 0
        ([⟨.ping, []⟩, ⟨.newTx, [1]⟩].foldl send []) = [] := by
  rw [foldl_send, List.nil_append, recvLoop_flatMap_encode _ 0 (by decide)]
  decide

/-! ### A stream that is cut -/

end Peer

/-- The messages whose frames lie before the cut. -/
def complete : List Message → ℕ → List Message
  | [], _ => []
  | msg :: msgs, cut =>
    if msg.encode.length ≤ cut then msg :: complete msgs (cut - msg.encode.length) else []

/-- The receiver gets to a frame that announces a payload, the stream goes on behind its header, and
the payload is not what the header announces: the cut falls into it, or it is too long for the
length field. -/
def Torn (msgs : List Message) (cut : ℕ) : Prop :=
  ∃ before msg after, msgs = before ++ msg :: after ∧
    (∀ m ∈ before, m.payload ≠ [] ∧ m.payload.length < 2 ^ 32) ∧
    (before.flatMap Message.encode).length + 5 < cut ∧ msg.announced ≠ 0 ∧
    (cut < (before.flatMap Message.encode).length + msg.encode.length ∨
      2 ^ 32 ≤ msg.payload.length)

theorem not_torn_nil (cut : ℕ) : ¬ Torn [] cut := by
  rintro ⟨before, msg, after, h, -⟩
  simp at h

theorem torn_cons_iff {msg : Message} {msgs : List Message} {cut : ℕ} :
    Torn (msg :: msgs) cut ↔
      (5 < cut ∧ msg.announced ≠ 0 ∧
        (cut < msg.encode.length ∨ 2 ^ 32 ≤ msg.payload.length)) ∨
      (msg.payload ≠ [] ∧ msg.payload.length < 2 ^ 32 ∧ msg.encode.length ≤ cut ∧
        Torn msgs (cut - msg.encode.length)) := by
  constructor
  · rintro ⟨before, torn, after, hsplit, hbefore, hcut, hzero, htorn⟩
    cases before with
    | nil =>
      obtain ⟨rfl, rfl⟩ := List.cons.inj hsplit
      left
      exact ⟨by simpa using hcut, hzero, by simpa using htorn⟩
    | cons first before =>
      obtain ⟨rfl, rfl⟩ := List.cons.inj hsplit
      obtain ⟨⟨hne, hlen⟩, hbefore⟩ := List.forall_mem_cons.mp hbefore
      rw [List.flatMap_cons, List.length_append] at hcut htorn
      right
      exact ⟨hne, hlen, by omega, before, torn, after, rfl, hbefore, by omega, hzero, by omega⟩
  · rintro (⟨hcut, hzero, htorn⟩ | ⟨hne, hlen, hfits, before, torn, after, rfl, hbefore, hcut,
      hzero, htorn⟩)
    · exact ⟨[], msg, msgs, rfl, by simp, by simpa using hcut, hzero, by simpa using htorn⟩
    · refine ⟨msg :: before, torn, after, rfl, List.forall_mem_cons.mpr ⟨⟨hne, hlen⟩, hbefore⟩, ?_⟩
      rw [List.flatMap_cons, List.length_append]
      exact ⟨by omega, hzero, by omega⟩

namespace Peer

/-- A cut behind a header leaves the header whole. -/
theorem take_encode_append (msg : Message) (tail : Bytes) {cut : ℕ} (hcut : 5 < cut) :
    (msg.encode ++ tail).take cut =
      frameHeader msg.type msg.announced ++ (msg.payload ++ tail).take (cut - 5) := by
  have hheader : (frameHeader msg.type msg.announced).length ≤ cut := by
    rw [length_frameHeader]
    omega
  rw [Message.encode, List.append_assoc, List.take_append, List.take_of_length_le hheader,
    length_frameHeader]

variable (stale : ℕ → FixedBytes 5) (round : ℕ) {msg : Message} {cut : ℕ}

/-- One round on a frame that announces a payload of which something came. -/
theorem recvLoop_take_encode (hcut : 5 < cut) (hzero : msg.announced ≠ 0) (tail : Bytes) :
    ∃ payload later, payload.length = msg.announced.toNat ∧
      recvLoop stale round ((msg.encode ++ tail).take cut) = ⟨msg.type, payload⟩ :: later := by
  have hlen : msg.announced.toNat ≠ 0 := fun h => hzero (UInt32.toNat_inj.mp h)
  have hpayload : msg.payload ≠ [] := Message.payload_ne_nil hzero
  have hgot : ((msg.payload ++ tail).take (cut - 5)).take msg.announced.toNat ≠ [] := by
    rw [List.take_take, ne_eq, List.take_eq_nil_iff, not_or]
    exact ⟨by omega, by simp [hpayload]⟩
  -- Whatever came, the buffer has the announced length.
  have hbuffer : (((msg.payload ++ tail).take (cut - 5)).take msg.announced.toNat).length ≤
      (List.replicate msg.announced.toNat (0 : UInt8)).length := by
    rw [List.length_replicate]
    exact List.length_take_le ..
  rw [take_encode_append msg tail hcut, recvLoop_frameHeader, if_neg hgot]
  exact ⟨_, _, (length_overwrite hbuffer).trans List.length_replicate, rfl⟩

/-- The loop ends at a header that is cut off or announces nothing. -/
theorem recvLoop_take_of_stops (h : cut ≤ 5 ∨ msg.announced = 0) (tail : Bytes) :
    recvLoop stale round ((msg.encode ++ tail).take cut) = [] := by
  by_cases hcut : 5 < cut
  · have hzero : msg.announced = 0 := h.resolve_left (by omega)
    rw [take_encode_append msg tail hcut, recvLoop_frameHeader, hzero]
    exact if_pos rfl
  · apply recvLoop_of_length_le
    rw [List.length_take]
    omega

/-- A frame before the cut is handed on, and the loop goes on behind it. -/
theorem recvLoop_take_of_fits (hne : msg.payload ≠ []) (hlen : msg.payload.length < 2 ^ 32)
    (hfits : msg.encode.length ≤ cut) (tail : Bytes) :
    recvLoop stale round ((msg.encode ++ tail).take cut) =
      msg :: recvLoop stale (round + 1) (tail.take (cut - msg.encode.length)) := by
  rw [List.take_append, List.take_of_length_le hfits, recvLoop_encode stale round hlen,
    if_neg hne]

/-- What is handed on of a torn frame is not the message that was sent: it has the length the header
announces. -/
theorem not_prefix_of_torn (hcut : 5 < cut) (hzero : msg.announced ≠ 0)
    (htorn : cut < msg.encode.length ∨ 2 ^ 32 ≤ msg.payload.length) (tail : Bytes)
    (msgs : List Message) :
    ¬ recvLoop stale round ((msg.encode ++ tail).take cut) <+: complete (msg :: msgs) cut := by
  intro hprefix
  obtain ⟨payload, later, hpayload, hfirst⟩ := recvLoop_take_encode stale round hcut hzero tail
  rw [hfirst, complete] at hprefix
  split at hprefix
  · next hfits =>
    obtain ⟨hmsg, -⟩ := List.cons_prefix_cons.mp hprefix
    have hannounced : msg.payload.length = msg.announced.toNat := by rw [← hpayload, ← hmsg]
    have hbound : msg.announced.toNat < 2 ^ 32 := UInt32.toNat_lt _
    omega
  · simp at hprefix

/-- Only whole messages are handed on exactly when the cut tears none. -/
theorem recvLoop_genuine_iff (msgs : List Message) (cut : ℕ) :
    recvLoop stale round ((msgs.flatMap Message.encode).take cut) <+: complete msgs cut ↔
      ¬ Torn msgs cut := by
  -- Along the messages: both sides go on past a frame that came whole, and one frame decides both
  -- otherwise.
  induction msgs generalizing round cut with
  | nil =>
    have hnil : recvLoop stale round ((([] : List Message).flatMap Message.encode).take cut) = [] :=
      recvLoop_of_length_le stale round (by simp)
    rw [hnil]
    exact iff_of_true List.nil_prefix (not_torn_nil cut)
  | cons msg msgs ih =>
    rw [List.flatMap_cons, torn_cons_iff]
    by_cases hstops : cut ≤ 5 ∨ msg.announced = 0
    · rw [recvLoop_take_of_stops stale round hstops]
      refine iff_of_true List.nil_prefix ?_
      rintro (⟨hcut, hzero, -⟩ | ⟨hne, hlen, hfits, -⟩)
      · exact hstops.elim (by omega) hzero
      · have hpos : 0 < msg.payload.length := List.length_pos_of_ne_nil hne
        rw [Message.length_encode] at hfits
        exact hstops.elim (by omega) (Message.announced_ne_zero hlen hne)
    obtain ⟨hcut, hzero⟩ := not_or.mp hstops
    rw [Nat.not_le] at hcut
    by_cases htorn : cut < msg.encode.length ∨ 2 ^ 32 ≤ msg.payload.length
    · exact iff_of_false (not_prefix_of_torn stale round hcut hzero htorn _ msgs)
        fun h => h (Or.inl ⟨hcut, hzero, htorn⟩)
    · obtain ⟨hfits, hlen⟩ := not_or.mp htorn
      rw [Nat.not_lt] at hfits
      rw [Nat.not_le] at hlen
      have hne : msg.payload ≠ [] := Message.payload_ne_nil hzero
      rw [recvLoop_take_of_fits stale round hne hlen hfits, complete, if_pos hfits,
        List.prefix_cons_inj, ih]
      simp only [htorn, hne, hlen, hfits, and_false, ne_eq, not_false_eq_true, true_and, false_or]

/-- A transaction of two bytes, cut after the first of them, arrives with a zero for the second. -/
theorem recvLoop_forges_transaction :
    recvLoop (fun _ => ⟨[0, 0, 0, 0, 0], rfl⟩) 0
        (([⟨.newTx, [1, 2]⟩].flatMap Message.encode).take 6) = [⟨.newTx, [1, 0]⟩] ∧
      ¬ recvLoop (fun _ => ⟨[0, 0, 0, 0, 0], rfl⟩) 0
        (([⟨.newTx, [1, 2]⟩].flatMap Message.encode).take 6) <+: complete [⟨.newTx, [1, 2]⟩] 6 := by
  have hstream : ([⟨.newTx, [1, 2]⟩].flatMap Message.encode).take 6 =
      frameHeader .newTx 2 ++ [1] := by decide
  have hforged : recvLoop (fun _ => ⟨[0, 0, 0, 0, 0], rfl⟩) 0
      (([⟨.newTx, [1, 2]⟩].flatMap Message.encode).take 6) = [⟨.newTx, [1, 0]⟩] := by
    rw [hstream, recvLoop_frameHeader, if_neg (by decide), recvLoop_of_length_le _ _ (by decide)]
    decide
  refine ⟨hforged, ?_⟩
  rw [hforged]
  decide

end Peer

end Gambit
