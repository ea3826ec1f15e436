import Mathlib.Algebra.Group.Nat.Defs
import WiseKernel.Lib.Traced
import WiseKernel.Lib.Window
import WiseKernel.Net.Result

/-!
# The message modifiers

`sequencer`, `checksum` and `cipher` work on a frame that stands at an offset
inside a buffer, through raw positions and `size_t` arithmetic.  Both are
recorded: a subtraction and every touched range is an event of the run, and an
access outside the buffer ends it as undefined.  Asserts only log in a release
build, so they do not appear.
-/

namespace WiseKernel.Net

open WiseKernel.Lib

/-- What a run of a modifier records. -/
inductive Event
  /-- the `size_t` subtraction `a - b` -/
  | sub (a b : ℕ)
  /-- a read or write of `len` bytes at `pos` -/
  | touch (pos len : ℕ)
  deriving DecidableEq, Repr

abbrev Run := Traced Abort Event

/-- `a - b` on `size_t`, which wraps below zero.  Sums of sizes of real
buffers stay far below `2 ^ 64` and are exact. -/
def subSize (a b : ℕ) : ℕ := if b ≤ a then a - b else 2 ^ 64 + a - b

def sub (a b : ℕ) : Run ℕ := do
  Traced.emit (.sub a b)
  return subSize a b

/-- Read `len` bytes at `data() + pos`. -/
def readAt (bytes : List UInt8) (pos len : ℕ) : Run (List UInt8) := do
  Traced.emit (.touch pos len)
  if pos + len ≤ bytes.length then return window bytes pos len
  else Traced.stop .undefined

/-- Write `xs` at `data() + pos`. -/
def writeAt (bytes : List UInt8) (pos : ℕ) (xs : List UInt8) : Run (List UInt8) := do
  Traced.emit (.touch pos xs.length)
  if pos + xs.length ≤ bytes.length then return overwrite bytes pos xs
  else Traced.stop .undefined

/-- `modifier::update_length_field`.  The upper two bytes repeat the second. -/
def updateLengthField (bytes : List UInt8) (msgOffset newLen : ℕ) : Run (List UInt8) :=
  writeAt bytes msgOffset
    [UInt8.ofNat (newLen &&& 0xFF), UInt8.ofNat (newLen >>> 8 &&& 0xFF),
      UInt8.ofNat (newLen >>> 8 &&& 0xFF), UInt8.ofNat (newLen >>> 8 &&& 0xFF)]

/-! ## The cryptographic library -/

def blockSize : ℕ := 16

/-- Keys, nonces and cipher blocks. -/
abbrev Block := { l : List UInt8 // l.length = blockSize }

/-- One direction of `AES-128/CBC/PKCS7` after `set_key` and `start`.
`process` maps whole blocks; `finish` takes the blocks processed since `start`
and the last piece, and is `none` where the library throws. -/
structure CipherMode where
  process : Block → Block → List UInt8 → List UInt8
  finish : Block → Block → List UInt8 → List UInt8 → Option (List UInt8)

/-- What the modifiers use of the library.  `crc32` is `none` when the hash is
not built in. -/
structure Botan where
  crc32 : Option (List UInt8 → { l : List UInt8 // l.length = 4 })
  sha1 : List UInt8 → { l : List UInt8 // l.length = 20 }
  encryption : CipherMode
  decryption : CipherMode

/-! ## Sequencer -/

/-- `sequencer`: the two one-byte counters. -/
structure Sequencer where
  sendSeq : UInt8
  recvSeq : UInt8
  deriving DecidableEq, Repr

namespace Sequencer

def sequenceSize : ℕ := 1

def initial : Sequencer := ⟨1, 1⟩

/-- `sequencer::on_recv`.  The counter advances on a mismatch too. -/
def onRecv (s : Sequencer) (bytes : List UInt8) (msgPos msgLen : ℕ) :
    Run (Result × Sequencer × ℕ) := do
  let index ← sub (msgPos + msgLen) sequenceSize
  let seq ← readAt bytes index sequenceSize
  let s' := { s with recvSeq := s.recvSeq + 1 }
  if seq = [s.recvSeq] then
    let newLen ← sub msgLen sequenceSize
    return (.ok, s', newLen)
  else return (.fail .failInvalidMessageSequence, s', msgLen)

def onSend (s : Sequencer) (bytes : List UInt8) (msgPos msgLen : ℕ) :
    Run (Sequencer × List UInt8) := do
  let bytes ← writeAt (bytes ++ [0x61]) (msgPos + msgLen) [s.sendSeq]
  let bytes ← updateLengthField bytes msgPos (msgLen + sequenceSize)
  return ({ s with sendSeq := s.sendSeq + 1 }, bytes)

end Sequencer

/-! ## Checksum -/

namespace Checksum

def checksumSize : ℕ := 4

def onRecv (B : Botan) (headerLength : ℕ) (bytes : List UInt8) (msgOffset msgLen : ℕ) :
    Run (Result × ℕ) :=
  if msgLen = headerLength then return (.ok, msgLen)
  else match B.crc32 with
    | none => return (.fail .failNullHashFunction, msgLen)
    | some hash => do
        let withoutCrc ← sub msgLen checksumSize
        let payloadLen ← sub withoutCrc headerLength
        let payload ← readAt bytes (msgOffset + headerLength) payloadLen
        let crcPos ← sub (msgOffset + msgLen) checksumSize
        let crc ← readAt bytes crcPos checksumSize
        if crc = (hash payload).1 then
          let newLen ← sub msgLen checksumSize
          return (.ok, newLen)
        else return (.fail .failIncorrectChecksum, msgLen)

def onSend (B : Botan) (headerLength : ℕ) (bytes : List UInt8) (msgOffset msgLen : ℕ) :
    Run (Result × List UInt8) :=
  if msgLen = headerLength then return (.ok, bytes)
  else match B.crc32 with
    | none => return (.fail .failNullHashFunction, bytes)
    | some hash => do
        let payloadLen ← sub msgLen headerLength
        let payload ← readAt bytes (msgOffset + headerLength) payloadLen
        let bytes ← writeAt (bytes ++ [0x61, 0x62, 0x63, 0x64]) (msgOffset + msgLen)
          (hash payload).1
        let bytes ← updateLengthField bytes msgOffset (msgLen + checksumSize)
        return (.ok, bytes)

end Checksum

/-! ## Cipher -/

/-- `cipher_impl`: one direction of the key schedule. -/
structure CipherImpl where
  key : Block
  nonce : Block
  data : List UInt8
  count : ℕ
  deriving DecidableEq

namespace CipherImpl

/-- The state `cipher::cipher` gives both directions. -/
def initial : CipherImpl where
  key := ⟨[0x2B, 0x7E, 0x15, 0x16, 0x28, 0xAE, 0xD2, 0xA6,
    0xAB, 0xF7, 0x15, 0x88, 0x09, 0xCF, 0x4F, 0x3C], rfl⟩
  nonce := ⟨[0xAC, 0xE0, 0x3D, 0x51, 0x9F, 0x3C, 0xBA, 0x2B,
    0xF6, 0x7C, 0xF1, 0xB7, 0xE1, 0xC4, 0xF0, 0x2D], rfl⟩
  data := []
  count := 0

/-- `cipher_impl::update_hash`: at most 64 plaintext bytes are chained. -/
def updateHash (B : Botan) (c : CipherImpl) (bytes : List UInt8) (msgPos msgLen : ℕ) :
    Run CipherImpl := do
  let plain ← readAt bytes msgPos (min msgLen 64)
  return { c with data := (B.sha1 (plain ++ c.data)).1 }

/-- `cipher_impl::complete` with `update_key` and `update_nonce`. -/
def complete (keyChangeInterval : ℕ) (c : CipherImpl) : Run CipherImpl :=
  if h : blockSize ≤ c.data.length ∧ keyChangeInterval ≠ 0 then
    let next : Block := ⟨c.data.take blockSize, by simp [h.1]⟩
    return { c with
      key := if c.count % keyChangeInterval = 0 then next else c.key
      nonce := next
      count := (c.count + 1) % 2 ^ 64 }
  else Traced.stop .undefined

end CipherImpl

/-- `cipher`: the receiving and the sending direction. -/
structure Cipher where
  receiver : CipherImpl
  sender : CipherImpl
  deriving DecidableEq

namespace Cipher

def initial : Cipher := ⟨.initial, .initial⟩

/-- `algo->process` in place, which the callers skip for no bytes and which
takes whole blocks only.  Returns the blocks as they were before. -/
def processInPlace (mode : CipherMode) (c : CipherImpl) (bytes : List UInt8) (pos len : ℕ) :
    Run (List UInt8 × List UInt8) :=
  if len = 0 then return ([], bytes)
  else if len % blockSize ≠ 0 then Traced.stop .undefined
  else do
    let blocks ← readAt bytes pos len
    let bytes ← writeAt bytes pos (mode.process c.key c.nonce blocks)
    return (blocks, bytes)

/-- `cipher::on_recv` on the receiving direction. -/
def onRecv (B : Botan) (keyChangeInterval headerLength : ℕ) (c : CipherImpl)
    (bytes : List UInt8) (msgOffset msgLen : ℕ) : Run (CipherImpl × List UInt8 × ℕ) := do
  let payloadSize ← sub msgLen headerLength
  if payloadSize = 0 then return (c, bytes, msgLen)
  else
    let cipherLen ← sub msgLen headerLength
    let cipherPos := msgOffset + headerLength
    let finalPos ← sub (cipherPos + cipherLen) blockSize
    let processLen ← sub cipherLen blockSize
    let (blocks, bytes) ← processInPlace B.decryption c bytes cipherPos processLen
    let finalBlock ← readAt bytes finalPos blockSize
    match B.decryption.finish c.key c.nonce blocks finalBlock with
    | none => Traced.stop .thrown
    | some plain => do
        let bytes ← writeAt bytes finalPos plain
        let padSize ← sub blockSize plain.length
        let payloadLen ← sub msgLen headerLength
        let plainLen ← sub payloadLen padSize
        let c ← c.updateHash B bytes (msgOffset + headerLength) plainLen
        let c ← c.complete keyChangeInterval
        let newLen ← sub msgLen padSize
        return (c, bytes, newLen)

/-- `cipher::on_send` on the sending direction. -/
def onSend (B : Botan) (keyChangeInterval headerLength : ℕ) (c : CipherImpl)
    (bytes : List UInt8) (msgOffset msgLen : ℕ) : Run (CipherImpl × List UInt8) := do
  let payloadSize ← sub msgLen headerLength
  if payloadSize = 0 then return (c, bytes)
  else
    let padSize := blockSize - payloadSize % blockSize
    let bytes := bytes ++ List.replicate padSize 0xFF
    let cipherLen := payloadSize + padSize
    let cipherPos := msgOffset + headerLength
    let finalPos ← sub (cipherPos + cipherLen) blockSize
    let payloadLen ← sub msgLen headerLength
    let hashed ← c.updateHash B bytes (msgOffset + headerLength) payloadLen
    let processLen ← sub cipherLen blockSize
    let (blocks, bytes) ← processInPlace B.encryption c bytes cipherPos processLen
    let finalBlock ← readAt bytes finalPos (blockSize - padSize)
    match B.encryption.finish c.key c.nonce blocks finalBlock with
    | none => Traced.stop .thrown
    | some out => do
        let bytes ← writeAt bytes finalPos out
        let c ← hashed.complete keyChangeInterval
        let bytes ← updateLengthField bytes msgOffset (msgLen + padSize)
        return (c, bytes)

end Cipher

end WiseKernel.Net
