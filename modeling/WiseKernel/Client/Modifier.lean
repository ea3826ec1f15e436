import WiseKernel.Net.BitsProtocol

/-!
# The client's modifiers

`SequenceModifier`, `ChecksumModifier` and `CipherModifier` of the C# client.
They work on the backing array of a `MemoryStream`, which is longer than what
was written and keeps bytes of earlier messages.  Every access to an array is
checked, and one outside it throws.
-/

namespace WiseKernel.Client

open WiseKernel.Lib WiseKernel.Net

/-- The exceptions that leave a call. -/
inductive Fault
  /-- an index or a range outside an array -/
  | outside
  /-- a text that the cipher does not accept -/
  | cryptographic
  /-- `count % CipherKeyChangeInterval` without a value -/
  | arithmetic
  /-- an exception of `Packet.Unpack` -/
  | unpack
  deriving DecidableEq, Repr

abbrev Call := Except Fault

/-! ## Arrays -/

/-- The `count` elements of an array from `offset` on. -/
def readArray (arr : List UInt8) (offset count : ℤ) : Call (List UInt8) :=
  if 0 ≤ offset ∧ 0 ≤ count ∧ offset + count ≤ arr.length then
    .ok (window arr offset.toNat count.toNat)
  else .error .outside

/-- Copy into an array. -/
def writeArray (arr : List UInt8) (offset : ℤ) (bytes : List UInt8) : Call (List UInt8) :=
  if 0 ≤ offset ∧ offset + bytes.length ≤ arr.length then
    .ok (overwrite arr offset.toNat bytes)
  else .error .outside

/-! ## Streams with their arrays -/

/-- A `MemoryStream` with its backing array: `GetBuffer()`, `Length` and
`Position`. -/
structure BackedStream where
  buffer : List UInt8
  length : ℕ
  position : ℕ
  length_le : length ≤ buffer.length
  deriving DecidableEq

namespace BackedStream

def empty : BackedStream := ⟨[], 0, 0, Nat.le_refl 0⟩

theorem empty_inside : empty.position ≤ empty.length := Nat.le_refl 0

/-- The array that holds `size` bytes: the old one, or a new one of the
capacity that `grow` chooses from the old capacity and the size needed. -/
def ensureCapacity (grow : ℕ → ℕ → ℕ) (s : BackedStream) (size : ℕ) : List UInt8 :=
  if s.buffer.length < size then
    s.buffer.take s.length ++
      List.replicate (max size (grow s.buffer.length size) - s.length) 0
  else s.buffer

/-- `Write` with all of an array.  What lies between the end of the stream and
a position behind it is cleared. -/
def write (grow : ℕ → ℕ → ℕ) (s : BackedStream) (bytes : List UInt8) : BackedStream :=
  let size := s.position + bytes.length
  let buffer := s.ensureCapacity grow size
  let cleared := buffer.take s.length ++ List.replicate (s.position - s.length) 0 ++
    buffer.drop (max s.position s.length)
  { buffer := overwrite cleared s.position bytes
    length := max s.length size
    position := size
    length_le := by
      have hlen := s.length_le
      have hbuffer : max size s.length ≤ buffer.length := by
        simp only [buffer, ensureCapacity]
        split_ifs
        · simp only [List.length_append, List.length_take, List.length_replicate]
          omega
        · omega
      simp only [overwrite, cleared, List.length_append, List.length_take, List.length_drop,
        List.length_replicate]
      omega }

def seek (s : BackedStream) (position : ℕ) : BackedStream := { s with position := position }

/-- Read the array of the stream through `GetBuffer()`. -/
def peek (s : BackedStream) (offset count : ℤ) : Call (List UInt8) :=
  readArray s.buffer offset count

/-- Write to the array of the stream through `GetBuffer()`. -/
def poke (s : BackedStream) (offset : ℤ) (bytes : List UInt8) : Call BackedStream :=
  if h : 0 ≤ offset ∧ offset + bytes.length ≤ s.buffer.length then
    .ok { s with
      buffer := overwrite s.buffer offset.toNat bytes
      length_le := by
        rw [length_overwrite (by omega)]
        exact s.length_le }
  else .error .outside

end BackedStream

/-! ## Header fields -/

def lengthFieldSize : ℤ := 4

def topicFieldSize : ℤ := 4

def headerSize : ℤ := lengthFieldSize + topicFieldSize

/-- The `uint` whose bytes stand at a position of the array. -/
def getField (stream : BackedStream) (pos : ℤ) : Call ℕ := do
  let bytes ← stream.peek pos 4
  return fieldValue bytes 0

def setField (stream : BackedStream) (pos : ℤ) (v : ℕ) : Call BackedStream :=
  stream.poke pos (fieldBytes v)

def getMessageLength (stream : BackedStream) (currentPosition : ℤ) : Call ℕ :=
  getField stream currentPosition

def getMessageTopic (recvBuf : BackedStream) (currentPosition : ℤ) : Call UInt32 := do
  let topic ← getField recvBuf (currentPosition + lengthFieldSize)
  return UInt32.ofNat topic

def setMessageLength (sendBuf : BackedStream) (packetStartPos : ℤ) (length : ℕ) :
    Call BackedStream :=
  setField sendBuf packetStartPos length

def setMessageTopic (sendBuf : BackedStream) (packetStartPos : ℤ) (topic : UInt32) :
    Call BackedStream :=
  setField sendBuf (packetStartPos + lengthFieldSize) topic.toNat

/-! ## The runtime and its settings -/

/-- What the modifiers use of the runtime library: how a stream grows, SHA-1,
and `TransformFinalBlock` of an AES-CBC transform with PKCS7 padding, which is
`none` where decryption throws. -/
structure Runtime where
  grow : ℕ → ℕ → ℕ
  sha1 : List UInt8 → { l : List UInt8 // l.length = 20 }
  encrypt : Block → Block → List UInt8 → List UInt8
  decrypt : Block → Block → List UInt8 → Option (List UInt8)

/-- `Config`.  The limit is an `int`. -/
structure Settings where
  maxPacketSize : ℤ := 512 * 1024
  enableSequence : Bool := true
  enableChecksum : Bool := true
  enableCipher : Bool := true
  cipherKeyChangeInterval : Int32 := 1024
  maxPacketSize_lt : maxPacketSize < 2 ^ 31 := by decide

/-- The codes that the modelled functions put into a `Result`. -/
inductive Code
  | success
  | failTooLargeMessage
  | failMessageNotRegistered
  | failMessagePack
  | failMessageUnpack
  | failInvalidRecvSequence
  | failInvalidCrc
  deriving DecidableEq, Repr

/-! ## Sequence -/

structure SequenceModifier where
  recvSeq : UInt8
  sendSeq : UInt8
  deriving DecidableEq, Repr

namespace SequenceModifier

def initial : SequenceModifier := ⟨1, 1⟩

def modifySend (R : Runtime) (m : SequenceModifier) (packetBuf : BackedStream) (start : ℤ) :
    Call (SequenceModifier × BackedStream) := do
  let len ← getMessageLength packetBuf start
  let packetBuf := packetBuf.write R.grow [m.sendSeq]
  let packetBuf ← setMessageLength packetBuf start ((len + 1) % 2 ^ 32)
  return ({ m with sendSeq := m.sendSeq + 1 }, packetBuf)

/-- The number does not advance on a mismatch. -/
def modifyRecv (m : SequenceModifier) (packetBuf : BackedStream) (start : ℤ) :
    Call (Code × SequenceModifier × BackedStream) := do
  let len ← getMessageLength packetBuf start
  let seq ← packetBuf.peek (start + len - 1) 1
  if seq ≠ [m.recvSeq] then return (.failInvalidRecvSequence, m, packetBuf)
  else
    let packetBuf ← setMessageLength packetBuf start ((len + 2 ^ 32 - 1) % 2 ^ 32)
    return (.success, { m with recvSeq := m.recvSeq + 1 }, packetBuf)

end SequenceModifier

/-! ## Checksum -/

namespace ChecksumModifier

/-- `crc.ComputeHash`.  `Crc32` declares no `Create`, so `Crc32.Create()` is
that of its base class and gives the default hash, SHA-1. -/
def computeHash (R : Runtime) (bytes : List UInt8) : List UInt8 := (R.sha1 bytes).1

/-- The comparison of the hash with the bytes at an index, which ends at the
first difference. -/
def equalAt (packetBuf : BackedStream) : ℤ → List UInt8 → Call Bool
  | _, [] => .ok true
  | index, b :: bs => do
      let byte ← packetBuf.peek index 1
      if byte = [b] then equalAt packetBuf (index + 1) bs else return false

def modifySend (R : Runtime) (packetBuf : BackedStream) (start : ℤ) : Call BackedStream := do
  let len ← getMessageLength packetBuf start
  if (len : ℤ) = headerSize then return packetBuf
  else
    let payload ← packetBuf.peek (start + headerSize) (len - headerSize)
    let packetBuf := packetBuf.write R.grow ((computeHash R payload).take 4)
    setMessageLength packetBuf start ((len + 4) % 2 ^ 32)

def modifyRecv (R : Runtime) (packetBuf : BackedStream) (start : ℤ) :
    Call (Code × BackedStream) := do
  let len ← getMessageLength packetBuf start
  if (len : ℤ) = headerSize then return (.success, packetBuf)
  else
    let payload ← packetBuf.peek (start + headerSize) (len - headerSize - 4)
    let crcIndex := start + (len - 4)
    let equal ← equalAt packetBuf crcIndex ((computeHash R payload).take 4)
    if equal = false then return (.failInvalidCrc, packetBuf)
    else
      let packetBuf ← setMessageLength packetBuf start (len - 4)
      return (.success, packetBuf)

end ChecksumModifier

/-! ## Cipher -/

/-- `CipherModifier.Cipher`: one direction. -/
structure Cipher where
  key : Block
  iv : Block
  hashStream : BackedStream
  workStream : BackedStream
  count : Int32
  deriving DecidableEq

namespace Cipher

def initial : Cipher where
  key := CipherImpl.initial.key
  iv := CipherImpl.initial.nonce
  hashStream := .empty
  workStream := .empty
  count := 0

/-- `UpdateHash`: the data and the last hash go to the front of the work
stream, and the hash is that of its whole array. -/
def updateHash (R : Runtime) (c : Cipher) (data : List UInt8) (offset length : ℤ) :
    Call Cipher := do
  let len := min length 64
  let bytes ← readArray data offset len
  let workStream := (c.workStream.seek 0).write R.grow bytes
  let workStream := workStream.write R.grow (c.hashStream.buffer.take c.hashStream.length)
  let hashValue := R.sha1 workStream.buffer
  return { c with
    workStream := workStream
    hashStream := (c.hashStream.seek 0).write R.grow hashValue.1 }

/-- `Complete` with `UpdateKey` and `UpdateIV`. -/
def complete (interval : Int32) (c : Cipher) : Call Cipher :=
  if interval = 0 ∨ interval = -1 ∧ c.count = Int32.minValue then .error .arithmetic
  else if h : blockSize ≤ c.hashStream.buffer.length then
    let tv : Block := ⟨c.hashStream.buffer.take blockSize, by simp [h]⟩
    .ok { c with
      key := if c.count % interval = 0 then tv else c.key
      iv := tv
      count := c.count + 1 }
  else .error .outside

end Cipher

/-- `CipherModifier`: its sender and its receiver. -/
structure CipherModifier where
  sender : Cipher
  recevier : Cipher
  deriving DecidableEq

namespace CipherModifier

def initial : CipherModifier := ⟨.initial, .initial⟩

def modifySend (R : Runtime) (S : Settings) (m : CipherModifier) (packetBuf : BackedStream)
    (start : ℤ) : Call (CipherModifier × BackedStream) := do
  let len ← getMessageLength packetBuf start
  let padSize := blockSize - ((len : ℤ) - headerSize).tmod blockSize
  let pad ← readArray (List.replicate 16 0xFF) 0 padSize
  let packetBuf := packetBuf.write R.grow pad
  let sender ← m.sender.updateHash R packetBuf.buffer (start + headerSize) (len - headerSize)
  let plain ← packetBuf.peek (start + headerSize) (len - headerSize)
  let encryptedData := R.encrypt m.sender.key m.sender.iv plain
  let packetBuf ← packetBuf.poke (start + headerSize) encryptedData
  let sender ← sender.complete S.cipherKeyChangeInterval
  let packetBuf ← setMessageLength packetBuf start
    ((encryptedData.length + headerSize.toNat) % 2 ^ 32)
  return ({ m with sender := sender }, packetBuf)

def modifyRecv (R : Runtime) (S : Settings) (m : CipherModifier) (packetBuf : BackedStream)
    (start : ℤ) : Call (CipherModifier × BackedStream) := do
  let len ← getMessageLength packetBuf start
  let text ← packetBuf.peek (start + headerSize) (len - headerSize)
  match R.decrypt m.recevier.key m.recevier.iv text with
  | none => .error .cryptographic
  | some decryptedData =>
      let packetBuf ← packetBuf.poke (start + headerSize) decryptedData
      let recevier ← m.recevier.updateHash R decryptedData 0 decryptedData.length
      let recevier ← recevier.complete S.cipherKeyChangeInterval
      let packetBuf ← setMessageLength packetBuf start
        ((decryptedData.length + headerSize.toNat) % 2 ^ 32)
      return ({ m with recevier := recevier }, packetBuf)

end CipherModifier

end WiseKernel.Client
