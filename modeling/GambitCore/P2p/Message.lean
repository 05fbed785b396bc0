import GambitCore.Basic
import GambitCore.Codec.BigEndian
import GambitCore.Codec.Bits

/-!
# Framed messages

`Message` of `p2p_message.cpp`: one byte for the type, four for the length of the payload with the
most significant first, and the payload.

The length of the payload is cut to 32 bits, so the frame of a longer payload announces too little.
The decoder adds the five bytes of the header to the length in 32 bits: a length within five of
`2 ^ 32` passes its check on any data, and the copy runs past the end.

## Main definitions

* `MessageType`, `Message`, `Message.encode`, `Message.decode`
* `Message.announced` — the length a frame announces
* `headerLen` — the length a reader takes from a header
* `Message.Framed` — the decoder takes exactly the data that begin with a frame

## Main results

* `headerLen_frameHeader` — a header is read back
* `framed_iff` — when the decoder takes exactly the data that begin with a frame
-/

namespace Gambit

/-- `MessageType`. Its underlying type is one byte, and a byte without a name of its own is a value
too. -/
inductive MessageType
  | hello
  | newTx
  | newBlock
  | getBlocks
  | blocksResponse
  | ping
  | pong
  | other (byte : UInt8) (h : 7 ≤ byte.toNat)
  deriving DecidableEq

namespace MessageType

/-- `static_cast<std::uint8_t>(type)`. -/
def toByte : MessageType → UInt8
  | hello => 0
  | newTx => 1
  | newBlock => 2
  | getBlocks => 3
  | blocksResponse => 4
  | ping => 5
  | pong => 6
  | other byte _ => byte

/-- `static_cast<MessageType>(byte)`. -/
def ofByte (byte : UInt8) : MessageType :=
  if h : 7 ≤ byte.toNat then other byte h
  else
    match byte.toNat with
    | 0 => hello
    | 1 => newTx
    | 2 => newBlock
    | 3 => getBlocks
    | 4 => blocksResponse
    | 5 => ping
    | _ => pong

@[simp] theorem ofByte_toByte (type : MessageType) : ofByte type.toByte = type := by
  cases type with
  | other byte h => simp [ofByte, toByte, h]
  | _ => rfl

theorem toByte_ofByte (byte : UInt8) : (ofByte byte).toByte = byte := by
  unfold ofByte
  split
  · rfl
  · next h =>
    apply UInt8.toNat_inj.mp
    -- Seven values are left.
    interval_cases hbyte : byte.toNat <;> rfl

end MessageType

/-- `Message`. -/
structure Message where
  type : MessageType
  payload : Bytes
  deriving DecidableEq

/-- The five bytes in front of a payload. -/
def frameHeader (type : MessageType) (len : UInt32) : Bytes :=
  [type.toByte, ((len >>> 24) &&& 0xFF).toUInt8, ((len >>> 16) &&& 0xFF).toUInt8,
    ((len >>> 8) &&& 0xFF).toUInt8, (len &&& 0xFF).toUInt8]

/-- The length of a header as `Peer::recvLoop` puts it together. -/
def headerLen (bytes : Bytes) : UInt32 :=
  ((bytes.getD 1 0).toUInt32 <<< 24) ||| ((bytes.getD 2 0).toUInt32 <<< 16) |||
    ((bytes.getD 3 0).toUInt32 <<< 8) ||| (bytes.getD 4 0).toUInt32

@[simp] theorem length_frameHeader (type : MessageType) (len : UInt32) :
    (frameHeader type len).length = 5 := rfl

/-! ### A word and its bytes -/

/-- One byte of a word. -/
theorem toNat_byteAt (word k : UInt32) (hk : k.toNat < 32) :
    ((word >>> k) &&& 0xFF).toUInt8.toNat = word.toNat / 2 ^ k.toNat % 256 := by
  have hmask (n : ℕ) : n &&& 255 = n % 2 ^ 8 := Nat.and_two_pow_sub_one_eq_mod n 8
  rw [UInt32.toNat_toUInt8, UInt32.toNat_and, UInt32.toNat_shiftRight, Nat.mod_eq_of_lt hk,
    Nat.shiftRight_eq_div_pow, show (0xFF : UInt32).toNat = 255 from rfl, hmask]
  norm_num

theorem ofBigEndian_four (b₁ b₂ b₃ b₄ : UInt8) : Codec.ofBigEndian [b₁, b₂, b₃, b₄] =
    ((b₁.toNat * 256 + b₂.toNat) * 256 + b₃.toNat) * 256 + b₄.toNat := by
  simp [Codec.ofBigEndian]

/-- Four bytes put together are their big-endian value. -/
theorem toNat_headerLen (t b₁ b₂ b₃ b₄ : UInt8) (rest : Bytes) :
    (headerLen (t :: b₁ :: b₂ :: b₃ :: b₄ :: rest)).toNat = Codec.ofBigEndian [b₁, b₂, b₃, b₄] := by
  have h₂ : b₂.toNat < 2 ^ 8 := b₂.toNat_lt
  have h₃ : b₃.toNat < 2 ^ 8 := b₃.toNat_lt
  have h₄ : b₄.toNat < 2 ^ 8 := b₄.toNat_lt
  have hwords : (headerLen (t :: b₁ :: b₂ :: b₃ :: b₄ :: rest)).toNat =
      b₁.toNat <<< 24 % 2 ^ 32 |||
        (b₂.toNat <<< 16 % 2 ^ 32 ||| (b₃.toNat <<< 8 % 2 ^ 32 ||| b₄.toNat)) := by
    simp [headerLen, Nat.or_assoc]
  -- From the last byte on, each is put in front of what is there.
  rw [hwords, Codec.or_shiftLeft_byte b₃ (by decide) h₄,
    Codec.or_shiftLeft_byte b₂ (by decide) (by omega),
    Codec.or_shiftLeft_byte b₁ (by decide) (by omega), ofBigEndian_four]
  omega

/-- The bytes of a header, as numbers. -/
theorem map_toNat_frameHeader (type : MessageType) (len : UInt32) :
    (frameHeader type len).map UInt8.toNat = [type.toByte.toNat, len.toNat / 2 ^ 24 % 256,
      len.toNat / 2 ^ 16 % 256, len.toNat / 2 ^ 8 % 256, len.toNat % 256] := by
  have hlast : (len &&& 0xFF).toUInt8.toNat = len.toNat % 256 := by
    simpa using toNat_byteAt len 0 (by decide)
  simp only [frameHeader, List.map_cons, List.map_nil, hlast, toNat_byteAt len 24 (by decide),
    toNat_byteAt len 16 (by decide), toNat_byteAt len 8 (by decide), UInt32.reduceToNat]

theorem headerLen_frameHeader (type : MessageType) (len : UInt32) :
    headerLen (frameHeader type len) = len := by
  have hbytes := map_toNat_frameHeader type len
  have hlen : len.toNat < 2 ^ 32 := len.toNat_lt
  simp only [frameHeader, List.map_cons, List.map_nil, List.cons.injEq, and_true] at hbytes
  obtain ⟨-, h₁, h₂, h₃, h₄⟩ := hbytes
  apply UInt32.toNat_inj.mp
  rw [frameHeader, toNat_headerLen, ofBigEndian_four, h₁, h₂, h₃, h₄]
  omega

/-- The header of the length that is read from five bytes is those bytes. -/
theorem frameHeader_headerLen (t b₁ b₂ b₃ b₄ : UInt8) (rest : Bytes) :
    frameHeader (MessageType.ofByte t) (headerLen (t :: b₁ :: b₂ :: b₃ :: b₄ :: rest)) =
      [t, b₁, b₂, b₃, b₄] := by
  have h₁ : b₁.toNat < 2 ^ 8 := b₁.toNat_lt
  have h₂ : b₂.toNat < 2 ^ 8 := b₂.toNat_lt
  have h₃ : b₃.toNat < 2 ^ 8 := b₃.toNat_lt
  have h₄ : b₄.toNat < 2 ^ 8 := b₄.toNat_lt
  apply List.map_injective_iff.mpr fun _ _ => UInt8.toNat_inj.mp
  rw [map_toNat_frameHeader, toNat_headerLen, ofBigEndian_four, MessageType.toByte_ofByte]
  simp only [List.map_cons, List.map_nil, List.cons.injEq, and_true, true_and]
  omega

namespace Message

/-- The length in the header of a message. -/
def announced (msg : Message) : UInt32 := UInt32.ofNat msg.payload.length

/-- `Message::encode`. -/
def encode (msg : Message) : Bytes := frameHeader msg.type msg.announced ++ msg.payload

@[simp] theorem length_encode (msg : Message) : msg.encode.length = 5 + msg.payload.length := by
  rw [encode, List.length_append, length_frameHeader]

theorem toNat_announced {msg : Message} (h : msg.payload.length < 2 ^ 32) :
    msg.announced.toNat = msg.payload.length :=
  UInt32.toNat_ofNat_of_lt' h

/-- `Message::decode`. The sum in the second check is one of 32-bit words. -/
def decode (data : Bytes) : Result Message :=
  if data.length < 5 then runtimeError "Message::decode: too short"
  else do
    let type ← readAt data 0
    let b₁ ← readAt data 1
    let b₂ ← readAt data 2
    let b₃ ← readAt data 3
    let b₄ ← readAt data 4
    let len : UInt32 :=
      (b₁.toUInt32 <<< 24) ||| (b₂.toUInt32 <<< 16) ||| (b₃.toUInt32 <<< 8) ||| b₄.toUInt32
    if data.length < (5 + len).toNat then runtimeError "Message::decode: incomplete payload"
    else
      -- The iterators are moved by 64-bit distances.
      let payload ← slice data 5 (5 + len.toUInt64)
      return ⟨MessageType.ofByte type, payload⟩

theorem payload_ne_nil {msg : Message} (h : msg.announced ≠ 0) : msg.payload ≠ [] := by
  intro hnil
  apply h
  rw [announced, hnil]
  rfl

theorem announced_ne_zero {msg : Message} (h : msg.payload.length < 2 ^ 32)
    (hne : msg.payload ≠ []) : msg.announced ≠ 0 := by
  intro hzero
  apply hne
  rw [← List.length_eq_zero_iff, ← toNat_announced h, hzero]
  rfl

/-! ### What the decoder takes -/

/-- The length that the four bytes behind the type of a frame stand for. -/
def declared (data : Bytes) : ℕ := Codec.ofBigEndian ((data.drop 1).take 4)

/-- The decoder takes exactly the data that begin with a frame, and throws on all others. A copy
from outside the data is neither. -/
def Framed (data : Bytes) : Prop :=
  (∀ msg : Message, decode data = .ok msg ↔
    msg.payload.length < 2 ^ 32 ∧ msg.encode <+: data) ∧
  ∀ e, decode data = .error e → ∃ what, e = .runtime what

theorem exists_five {data : Bytes} (h : 5 ≤ data.length) :
    ∃ t b₁ b₂ b₃ b₄ rest, data = t :: b₁ :: b₂ :: b₃ :: b₄ :: rest := by
  match data, h with
  | t :: b₁ :: b₂ :: b₃ :: b₄ :: rest, _ => exact ⟨t, b₁, b₂, b₃, b₄, rest, rfl⟩

theorem toNat_headerLen_eq {data : Bytes} (h : 5 ≤ data.length) :
    (headerLen data).toNat = declared data := by
  obtain ⟨t, b₁, b₂, b₃, b₄, rest, rfl⟩ := exists_five h
  exact toNat_headerLen t b₁ b₂ b₃ b₄ rest

theorem declared_lt {data : Bytes} (h : 5 ≤ data.length) : declared data < 2 ^ 32 := by
  rw [← toNat_headerLen_eq h]
  exact UInt32.toNat_lt _

/-- The decoder behind its first check. -/
theorem decode_eq {data : Bytes} (h : 5 ≤ data.length) :
    decode data =
      if data.length < (5 + declared data) % 2 ^ 32 then
        runtimeError "Message::decode: incomplete payload"
      else if 5 + declared data ≤ data.length then
        .ok ⟨.ofByte (data.getD 0 0), (data.drop 5).take (declared data)⟩
      else .error .badRange := by
  have hlen := toNat_headerLen_eq h
  have hlt := (headerLen data).toNat_lt
  have hsum : (5 + headerLen data).toNat = (5 + declared data) % 2 ^ 32 := by
    rw [UInt32.toNat_add, hlen]
    rfl
  have hstop : (5 + (headerLen data).toUInt64).toNat = 5 + declared data := by
    rw [UInt64.toNat_add, UInt32.toNat_toUInt64, hlen, show (5 : UInt64).toNat = 5 from rfl]
    omega
  have hle : 5 ≤ 5 + (headerLen data).toUInt64 := by
    rw [UInt64.le_iff_toNat_le, hstop]
    exact Nat.le_add_right 5 _
  have hdecode : decode data =
      if data.length < (5 + headerLen data).toNat then
        runtimeError "Message::decode: incomplete payload"
      else do
        let payload ← slice data 5 (5 + (headerLen data).toUInt64)
        return ⟨.ofByte (data.getD 0 0), payload⟩ := by
    obtain ⟨t, b₁, b₂, b₃, b₄, rest, rfl⟩ := exists_five h
    rfl
  rw [hdecode, slice_of_le _ hle, hsum, hstop, List.drop_take, show (5 : UInt64).toNat = 5 from rfl,
    Nat.add_sub_cancel_left]
  congr 1
  split <;> rfl

/-- A frame at the start of some data has the type and the length that are read there. -/
theorem eq_of_isPrefix {data : Bytes} {msg : Message} (h : 5 ≤ data.length)
    (hmsg : msg.payload.length < 2 ^ 32) (hstarts : msg.encode <+: data) :
    5 + declared data ≤ data.length ∧
      msg = ⟨.ofByte (data.getD 0 0), (data.drop 5).take (declared data)⟩ := by
  have hlen := toNat_headerLen_eq h
  obtain ⟨t, b₁, b₂, b₃, b₄, rest, rfl⟩ := exists_five h
  obtain ⟨tail, htail⟩ := hstarts
  have hsplit : frameHeader msg.type msg.announced ++ (msg.payload ++ tail) =
      [t, b₁, b₂, b₃, b₄] ++ rest := by
    rw [← List.append_assoc]
    exact htail
  obtain ⟨hheader, rfl⟩ := List.append_inj hsplit rfl
  -- The five bytes are the header that was written, so its length is read back.
  have hread : headerLen (t :: b₁ :: b₂ :: b₃ :: b₄ :: (msg.payload ++ tail)) = msg.announced := by
    rw [← headerLen_frameHeader msg.type msg.announced, hheader]
    rfl
  have htype : MessageType.ofByte t = msg.type := by
    rw [← MessageType.ofByte_toByte msg.type]
    exact congrArg MessageType.ofByte (List.cons.inj hheader).1.symm
  rw [hread, toNat_announced hmsg] at hlen
  rw [← hlen]
  constructor
  · simp only [List.length_cons, List.length_append]
    omega
  · simp [htype]

/-- What is read at the start of some data is a frame there, when it is all there. -/
theorem isPrefix_of_fits {data : Bytes} (h : 5 ≤ data.length)
    (hfits : 5 + declared data ≤ data.length) :
    encode ⟨.ofByte (data.getD 0 0), (data.drop 5).take (declared data)⟩ <+: data := by
  have hlen := toNat_headerLen_eq h
  have hlt := (headerLen data).toNat_lt
  have hpayload : ((data.drop 5).take (declared data)).length = declared data := by
    rw [List.length_take, List.length_drop]
    omega
  have hannounced : announced ⟨.ofByte (data.getD 0 0), (data.drop 5).take (declared data)⟩ =
      headerLen data := by
    apply UInt32.toNat_inj.mp
    rw [toNat_announced (by rw [hpayload]; omega), hpayload, hlen]
  refine ⟨(data.drop 5).drop (declared data), ?_⟩
  rw [encode, hannounced, List.append_assoc, List.take_append_drop]
  obtain ⟨t, b₁, b₂, b₃, b₄, rest, rfl⟩ := exists_five h
  exact congrArg (· ++ rest) (frameHeader_headerLen t b₁ b₂ b₃ b₄ rest)

theorem not_isPrefix_of_short {data : Bytes} (h : data.length < 5) (msg : Message) :
    ¬ msg.encode <+: data := by
  intro hstarts
  have hle := hstarts.length_le
  rw [length_encode] at hle
  omega

theorem framed_of_throws {data : Bytes} {what : String} (hdecode : decode data = runtimeError what)
    (hnone : ∀ msg : Message, ¬ (msg.payload.length < 2 ^ 32 ∧ msg.encode <+: data)) :
    Framed data := by
  rw [Framed, hdecode]
  refine ⟨fun msg => iff_of_false (fun hok => ?_) (hnone msg), fun e he => ?_⟩
  · cases hok
  · exact ⟨what, (Except.error.inj he).symm⟩

/-- When the announced payload is there, the wrapped sum is no larger than the sum, and the frame is
taken. -/
theorem framed_of_fits {data : Bytes} (h : 5 ≤ data.length)
    (hfits : 5 + declared data ≤ data.length) : Framed data := by
  have hlt := declared_lt h
  rw [Framed, decode_eq h, if_neg (Nat.not_lt.mpr ((Nat.mod_le _ _).trans hfits)), if_pos hfits]
  refine ⟨fun msg => ⟨?_, ?_⟩, fun e he => ?_⟩
  · intro hok
    obtain rfl := Except.ok.inj hok
    exact ⟨(List.length_take_le _ _).trans_lt hlt, isPrefix_of_fits h hfits⟩
  · rintro ⟨hmsg, hstarts⟩
    rw [(eq_of_isPrefix h hmsg hstarts).2]
  · cases he

/-- The decoder takes exactly the data that begin with a frame, unless the length it reads is within
five of `2 ^ 32` and the payload is not there: the sum with the size of the header then wraps, and
the copy runs past the end of the data. -/
theorem framed_iff (data : Bytes) :
    Framed data ↔
      data.length < 5 ∨ declared data < 2 ^ 32 - 5 ∨ 5 + declared data ≤ data.length := by
  by_cases hshort : data.length < 5
  · exact iff_of_true
      (framed_of_throws (if_pos hshort) fun msg hmsg => not_isPrefix_of_short hshort msg hmsg.2)
      (.inl hshort)
  have hfive : 5 ≤ data.length := Nat.le_of_not_lt hshort
  by_cases hfits : 5 + declared data ≤ data.length
  · exact iff_of_true (framed_of_fits hfive hfits) (.inr (.inr hfits))
  by_cases hwrap : declared data < 2 ^ 32 - 5
  · have hsum : data.length < (5 + declared data) % 2 ^ 32 := by
      rw [Nat.mod_eq_of_lt (by omega)]
      omega
    have hdecode := (decode_eq hfive).trans (if_pos hsum)
    exact iff_of_true
      (framed_of_throws hdecode fun msg hmsg => hfits (eq_of_isPrefix hfive hmsg.1 hmsg.2).1)
      (.inr (.inl hwrap))
  -- The sum is less than five, so that the check passes on any data.
  · have hlt := declared_lt hfive
    have hsum : ¬ data.length < (5 + declared data) % 2 ^ 32 := by omega
    have hdecode : decode data = .error .badRange := by
      rw [decode_eq hfive, if_neg hsum, if_neg hfits]
    refine iff_of_false (fun h => ?_) (by omega)
    obtain ⟨what, hwhat⟩ := h.2 _ hdecode
    cases hwhat

/-- A header alone that announces `2 ^ 32 - 1` bytes: the decoder copies from outside the data. -/
theorem decode_past_end :
    decode [6, 0xFF, 0xFF, 0xFF, 0xFF] = .error .badRange ∧
      ¬ Framed [6, 0xFF, 0xFF, 0xFF, 0xFF] := by
  have hdecode : decode [6, 0xFF, 0xFF, 0xFF, 0xFF] = .error .badRange := by decide
  refine ⟨hdecode, fun h => ?_⟩
  obtain ⟨what, hwhat⟩ := h.2 _ hdecode
  cases hwhat

end Message

end Gambit
