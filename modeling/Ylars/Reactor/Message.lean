import Ylars.Lib.Framing
import Ylars.Lib.LittleEndian

/-!
# Messages on a TCP stream: `msg_head`

A message travels as an eight-byte head, its id and its length as little-endian
`int`s, followed by its bytes.  `frontMsg` is what the read loops make of the bytes
they hold: the length in the head is compared with a limit, and the message is
complete when the buffer holds that many bytes behind the head.  With the sender's
way to write a message this is a framing of the stream, for every limit.
-/

namespace Ylars.Reactor

open Ylars.Lib

/-- `MSG_HEAD_LEN`. -/
def msgHeadLen : Int := 8

/-- `MSG_MAX_LIMIT`. -/
def msgMaxLimit : Int := 65535 - msgHeadLen

/-- The head of a message, `msg_head`. -/
structure MsgHead where
  msgid : Int32
  msglen : Int32
deriving DecidableEq, Repr

namespace MsgHead

/-- The bytes of a head in memory. -/
def bytes (h : MsgHead) : List UInt8 :=
  LittleEndian.toBytes 4 h.msgid.toUInt32.toNat ++ LittleEndian.toBytes 4 h.msglen.toUInt32.toNat

/-- The head that eight bytes of memory make. -/
def ofBytes (bs : List UInt8) : MsgHead where
  msgid := (UInt32.ofNat (LittleEndian.ofBytes (bs.take 4))).toInt32
  msglen := (UInt32.ofNat (LittleEndian.ofBytes ((bs.drop 4).take 4))).toInt32

@[simp] theorem length_bytes (h : MsgHead) : h.bytes.length = 8 := by
  simp [bytes]

theorem toInt32_ofBytes_toBytes (x : Int32) :
    (UInt32.ofNat (LittleEndian.ofBytes (LittleEndian.toBytes 4 x.toUInt32.toNat))).toInt32 =
      x := by
  rw [LittleEndian.ofBytes_toBytes 4 _ (by have := x.toUInt32.toNat_lt; omega), UInt32.ofNat_toNat,
    Int32.toInt32_toUInt32]

theorem toBytes_ofBytes {bs : List UInt8} (h : bs.length = 4) :
    LittleEndian.toBytes 4 (UInt32.ofNat (LittleEndian.ofBytes bs)).toInt32.toUInt32.toNat =
      bs := by
  have hlt := LittleEndian.ofBytes_lt bs
  have hinv := LittleEndian.toBytes_ofBytes bs
  rw [h] at hlt hinv
  rw [UInt32.toUInt32_toInt32, UInt32.toNat_ofNat_of_lt' (by simpa using hlt), hinv]

/-- Reading back a head. -/
theorem ofBytes_bytes (h : MsgHead) : ofBytes h.bytes = h := by
  have h₁ : h.bytes.take 4 = LittleEndian.toBytes 4 h.msgid.toUInt32.toNat :=
    List.take_left' (by simp)
  have h₂ : (h.bytes.drop 4).take 4 = LittleEndian.toBytes 4 h.msglen.toUInt32.toNat := by
    rw [bytes, List.drop_left' (by simp), List.take_of_length_le (by simp)]
  rw [ofBytes, h₁, h₂, toInt32_ofBytes_toBytes, toInt32_ofBytes_toBytes]

theorem bytes_ofBytes {bs : List UInt8} (h : bs.length = 8) : (ofBytes bs).bytes = bs := by
  have h₂ : (bs.drop 4).take 4 = bs.drop 4 := List.take_of_length_le (by simp [h])
  rw [bytes, ofBytes, toBytes_ofBytes (by simp [h]), toBytes_ofBytes (by simp [h]), h₂,
    List.take_append_drop]

end MsgHead

/-- A message: its id and its bytes. -/
structure Message where
  msgid : Int32
  data : List UInt8
deriving DecidableEq, Repr

namespace Message

/-- The head that `send_msg` puts before the bytes. -/
def head (m : Message) : MsgHead where
  msgid := m.msgid
  msglen := Int32.ofNat m.data.length

/-- A message on the stream. -/
def bytes (m : Message) : List UInt8 := m.head.bytes ++ m.data

/-- A message within a limit, with a length that is an `int`. -/
def Within (limit : Int) (m : Message) : Prop :=
  m.data.length ≤ limit ∧ m.data.length < 2 ^ 31

theorem toInt_msglen {m : Message} (h : m.data.length < 2 ^ 31) :
    m.head.msglen.toInt = m.data.length := Int32.toInt_ofNat_of_lt h

end Message

/-- What a read loop with limit `limit` finds at the front of the bytes it holds. -/
def frontMsg (limit : Int) (bs : List UInt8) : Front Message UInt8 :=
  if (bs.length : Int) < msgHeadLen then .need
  else
    let head := MsgHead.ofBytes (bs.take 8)
    if limit < head.msglen.toInt ∨ head.msglen.toInt < 0 then .bad
    else if bs.length - msgHeadLen < head.msglen.toInt then .need
    else .frame ⟨head.msgid, (bs.drop 8).take head.msglen.toInt.toNat⟩
      (bs.drop (8 + head.msglen.toInt.toNat))

section

variable {limit : Int} {m : Message} {bs rest : List UInt8}

theorem frontMsg_of_head (h : bs.take 8 = m.head.bytes) (hl : m.Within limit) :
    frontMsg limit bs =
      if (bs.length : Int) - msgHeadLen < m.data.length then .need
      else .frame ⟨m.msgid, (bs.drop 8).take m.data.length⟩ (bs.drop (8 + m.data.length)) := by
  have hlen : 8 ≤ bs.length := by
    have := congrArg List.length h
    rw [List.length_take, MsgHead.length_bytes] at this
    omega
  have hlong : ¬(bs.length : Int) < msgHeadLen := by
    rw [msgHeadLen]
    omega
  have hbad : ¬(limit < (m.data.length : Int) ∨ (m.data.length : Int) < 0) := by
    have := hl.1
    omega
  rw [frontMsg, if_neg hlong]
  simp only [h, MsgHead.ofBytes_bytes, Message.toInt_msglen hl.2, if_neg hbad, Int.toNat_natCast]
  rfl

/-- A whole message is found. -/
theorem frontMsg_bytes (hl : m.Within limit) :
    frontMsg limit (m.bytes ++ rest) = .frame m rest := by
  have htake : (m.bytes ++ rest).take 8 = m.head.bytes := by
    rw [Message.bytes, List.append_assoc]
    exact List.take_left' (MsgHead.length_bytes _)
  rw [frontMsg_of_head htake hl, if_neg]
  · rw [Message.bytes, List.append_assoc, ← List.drop_drop,
      List.drop_left' (MsgHead.length_bytes _), List.take_left' rfl, List.drop_left' rfl]
  · rw [Message.bytes, msgHeadLen]
    simp only [List.length_append, MsgHead.length_bytes]
    omega

/-- A message that is not there in full is waited for. -/
theorem frontMsg_prefix (hl : m.Within limit) (hp : bs <+: m.bytes) (hne : bs ≠ m.bytes) :
    frontMsg limit bs = .need := by
  obtain ⟨rest, hrest⟩ := hp
  have hpos : 0 < rest.length := by
    rw [List.length_pos_iff]
    rintro rfl
    exact hne (by rw [← hrest, List.append_nil])
  have hsum := congrArg List.length hrest
  simp only [Message.bytes, List.length_append, MsgHead.length_bytes] at hsum
  by_cases hlen : bs.length < 8
  · exact if_pos (by rw [msgHeadLen]; omega)
  · have htake : bs.take 8 = m.head.bytes := by
      have := congrArg (List.take 8) hrest
      rw [List.take_append_of_le_length (by omega), Message.bytes,
        List.take_left' (MsgHead.length_bytes _)] at this
      exact this
    rw [frontMsg_of_head htake hl, if_pos]
    rw [msgHeadLen]
    omega

/-- What is found as a message was written as one. -/
theorem frontMsg_frame (h : frontMsg limit bs = .frame m rest) :
    m.Within limit ∧ bs = m.bytes ++ rest := by
  rw [frontMsg, msgHeadLen] at h
  split at h
  · cases h
  rename_i hlong
  simp only at h
  split at h
  · cases h
  rename_i hbad
  split at h
  · cases h
  rename_i hshort
  obtain ⟨rfl, rfl⟩ := Front.frame.inj h
  generalize hk : (MsgHead.ofBytes (bs.take 8)).msglen.toInt = k at *
  have hlt : k < 2 ^ 31 := hk ▸ Int32.toInt_lt _
  have hlen : ((bs.drop 8).take k.toNat).length = k.toNat := by
    rw [List.length_take, List.length_drop]
    omega
  have hhead : (⟨(MsgHead.ofBytes (bs.take 8)).msgid, (bs.drop 8).take k.toNat⟩ : Message).head =
      MsgHead.ofBytes (bs.take 8) := by
    have hmsglen : Int32.ofNat k.toNat = (MsgHead.ofBytes (bs.take 8)).msglen := by
      apply Int32.toInt_inj.mp
      rw [hk, Int32.toInt_ofNat_of_lt (by omega)]
      omega
    simp only [Message.head, hlen, hmsglen]
  refine ⟨⟨?_, ?_⟩, ?_⟩
  · simp only [hlen]
    omega
  · simp only [hlen]
    omega
  · rw [Message.bytes, hhead, MsgHead.bytes_ofBytes (by rw [List.length_take]; omega)]
    simp only
    rw [← List.drop_drop, List.append_assoc, List.take_append_drop, List.take_append_drop]

end

/-- The stream of messages, as a reader with limit `limit` sees it. -/
def framing (limit : Int) : Framing Message UInt8 where
  enc := Message.bytes
  Legal := Message.Within limit
  front := frontMsg limit
  front_nil := rfl
  front_enc _ _ hl := frontMsg_bytes hl
  front_prefix _ _ hl hp hne := frontMsg_prefix hl hp hne
  front_frame _ _ _ h := frontMsg_frame h

end Ylars.Reactor
