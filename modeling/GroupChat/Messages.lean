import GroupChat.Library.ByteLayout

/-!
# The records on the wire

The structs of `messages.h` that client and server exchange, with the layout a
64-bit little-endian machine gives them. Client and server write and read them
as raw memory, so the layout is part of the protocol: a
`GroupChat.JoinRequest` is 40 bytes, a `GroupChat.JoinResponse` 8, and a
`GroupChat.Message` 248, the last four of which are the padding that brings the
struct to a multiple of its alignment.

What a reader of a misaligned stream sees is decided by one coincidence of these
layouts: the first eight bytes of a `Message` are laid out as a `JoinResponse`
(`GroupChat.decode_joinResponse_message`).
-/

namespace GroupChat

open ByteLayout

/-- Fields of characters are compared as lists, byte after byte, which the kernel does
much faster than by index. -/
local instance decidableEqChars (n : ℕ) : DecidableEq (Vector UInt8 n) := fun v w =>
  decidable_of_iff (v.toList = w.toList) Vector.toList_inj

/-- `struct timeval`. -/
structure Timeval where
  /-- Seconds. -/
  tv_sec : Int64
  /-- Microseconds. -/
  tv_usec : Int64
deriving DecidableEq, Repr

/-- `struct JoinRequest`. -/
structure JoinRequest where
  /-- The group handle. -/
  groupName : Vector UInt8 20
  /-- The user handle. -/
  name : Vector UInt8 20
deriving DecidableEq

/-- `struct JoinResponse`. -/
structure JoinResponse where
  /-- The id the server assigned. -/
  id : Int32
  /-- The group the server assigned. -/
  groupId : Int32
deriving DecidableEq

/-- `struct Message`. -/
structure Message where
  /-- The id of the sender, as the sender states it. -/
  id : Int32
  /-- The group of the sender, as the sender states it. -/
  groupId : Int32
  /-- When the sender sent it. -/
  time : Timeval
  /-- The user handle of the sender. -/
  name : Vector UInt8 20
  /-- The text. -/
  message : Vector UInt8 200
  /-- The tail padding that `sizeof(struct Message)` counts; no statement reads it. -/
  pad : Vector UInt8 4
deriving DecidableEq

/-- A message without name and text, in the two fields the server looks at. -/
def Message.blank (id groupId : Int32) : Message where
  id := id
  groupId := groupId
  time := ⟨0, 0⟩
  name := Vector.replicate 20 0
  message := Vector.replicate 200 0
  pad := Vector.replicate 4 0

/-! ### Layouts -/

/-- The bytes of a join request; the two names are adjacent, so a reader that
runs off the end of the first goes on in the second. -/
def JoinRequest.bytes (r : JoinRequest) : List UInt8 := r.groupName.toList ++ r.name.toList

/-- The bytes of a join response. -/
def JoinResponse.bytes (r : JoinResponse) : List UInt8 := encodeInt r.id ++ encodeInt r.groupId

/-- The bytes of a message. -/
def Message.bytes (m : Message) : List UInt8 :=
  encodeInt m.id ++ (encodeInt m.groupId ++ (encodeLong m.time.tv_sec ++
    (encodeLong m.time.tv_usec ++ (m.name.toList ++ (m.message.toList ++ m.pad.toList)))))

/-- The layout of a join request. -/
def joinRequestCodec : RecordCodec JoinRequest where
  size := 40
  encode := JoinRequest.bytes
  decode bs := { groupName := chars bs 0 20, name := chars bs 20 20 }
  length_encode r := by simp [JoinRequest.bytes]
  decode_encode r := by
    have h1 : chars r.bytes 0 20 = r.groupName := by
      have h : chars ([] ++ (r.groupName.toList ++ r.name.toList)) 0 20 = r.groupName :=
        chars_append rfl
      exact h
    have h2 : chars r.bytes 20 20 = r.name := by
      have h : chars (r.groupName.toList ++ (r.name.toList ++ [])) 20 20 = r.name :=
        chars_append (by simp)
      rwa [List.append_nil] at h
    rw [h1, h2]

/-- The layout of a join response. -/
def joinResponseCodec : RecordCodec JoinResponse where
  size := 8
  encode := JoinResponse.bytes
  decode bs := { id := decodeInt (field bs 0 4), groupId := decodeInt (field bs 4 4) }
  length_encode r := by simp [JoinResponse.bytes]
  decode_encode r := by
    obtain ⟨id, groupId⟩ := r
    simp [JoinResponse.bytes, field, List.take_of_length_le]

/-- The layout of a message. -/
def messageCodec : RecordCodec Message where
  size := 248
  encode := Message.bytes
  decode bs :=
    { id := decodeInt (field bs 0 4)
      groupId := decodeInt (field bs 4 4)
      time := { tv_sec := decodeLong (field bs 8 8), tv_usec := decodeLong (field bs 16 8) }
      name := chars bs 24 20
      message := chars bs 44 200
      pad := chars bs 244 4 }
  length_encode m := by simp [Message.bytes]
  decode_encode m := by
    obtain ⟨id, groupId, ⟨sec, usec⟩, name, text, pad⟩ := m
    simp [Message.bytes, field, chars, List.drop_append, List.take_of_length_le,
      List.drop_of_length_le]

/-- **A message begins with something that reads as a join response**: its id
and its group, in the places where the response has them. -/
theorem decode_joinResponse_message (m : Message) (rest : List UInt8) :
    joinResponseCodec.decode ((messageCodec.encode m ++ rest).take 8) =
      { id := m.id, groupId := m.groupId } := by
  simp [joinResponseCodec, messageCodec, Message.bytes, field, List.take_append,
    List.take_of_length_le]

end GroupChat
