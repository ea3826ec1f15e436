import WiseKernel.Lib.LittleEndian
import WiseKernel.Net.Modifier
import WiseKernel.Net.ResizeBuffer

/-!
# The bits protocol

`bits_protocol` packs a packet behind an eight-byte header, runs the modifiers
over the frame on the way out, and on the way in cuts the byte stream into
frames again.  The receive loop is kept as the source has it: the iterator,
the processed length and the buffer's read cursor are three separate
positions.
-/

namespace WiseKernel.Net

open WiseKernel.Lib

/-! ## Configuration and packets -/

/-- `bits_protocol::cfg` and, last, `cipher::cfg`. -/
structure Config where
  enableCipher : Bool := true
  enableChecksum : Bool := true
  enableSequence : Bool := true
  enableLoopback : Bool := false
  maxPacketLength : ℕ := 512 * 1024
  keyChangeInterval : ℕ := 1024

/-- The modification options of a `bits_packet`. -/
structure Flags where
  enableSequence : Bool := false
  enableChecksum : Bool := false
  enableCipher : Bool := false
  deriving DecidableEq, Repr

/-- What `unpack` returns: its result, the filled object and how far it moved
the read cursor. -/
structure Unpacked (P : Type) where
  ok : Bool
  packet : P
  used : ℕ

/-- The virtual functions of a family of packet classes.  `unpack` sees the
buffer only through a packer that starts at the read cursor: it cannot use
more than is there, and when it succeeds all of its reads did, so that its
result depends on the bytes it used alone. -/
structure PacketOps (P : Type) where
  topic : P → UInt32
  flags : P → Flags
  pack : P → List UInt8 × Bool
  unpack : P → List UInt8 → Unpacked P
  used_le : ∀ p bs, (unpack p bs).used ≤ bs.length
  unpack_congr : ∀ p bs bs', (unpack p bs).ok = true →
    bs'.take (unpack p bs).used = bs.take (unpack p bs).used →
      unpack p bs' = unpack p bs

/-- Everything a protocol object uses and does not own: the packet classes,
the cryptographic library, the static configuration and `bits_factory`. -/
structure Env (P : Type) where
  ops : PacketOps P
  botan : Botan
  cfg : Config
  factory : UInt32 → Option P

/-! ## Header fields -/

def headerLength : ℕ := 8

/-- The four bytes `set_length` and `set_topic` store. -/
def fieldBytes (v : ℕ) : List UInt8 :=
  [UInt8.ofNat (v &&& 0xFF), UInt8.ofNat (v >>> 8 &&& 0xFF),
    UInt8.ofNat (v >>> 16 &&& 0xFF), UInt8.ofNat (v >>> 24 &&& 0xFF)]

/-- The value `get_length` and `get_topic` read at a position. -/
def fieldValue (bytes : List UInt8) (pos : ℕ) : ℕ :=
  let b (k : ℕ) : ℕ := (bytes.getD (pos + k) 0).toNat
  b 0 ||| b 1 <<< 8 ||| b 2 <<< 16 ||| b 3 <<< 24

def setLength (len : ℕ) (bytes : List UInt8) (pos : ℕ) : List UInt8 :=
  overwrite bytes pos (fieldBytes len)

def setTopic (key : UInt32) (bytes : List UInt8) (pos : ℕ) : List UInt8 :=
  overwrite bytes pos (fieldBytes key.toNat)

def getLength (bytes : List UInt8) (pos : ℕ) : ℕ := fieldValue bytes pos

def getTopic (bytes : List UInt8) (pos : ℕ) : UInt32 := UInt32.ofNat (fieldValue bytes pos)

/-! ## The modifier pipeline -/

/-- The modifiers of one protocol object that have a state. -/
structure Modifiers where
  sequencer : Sequencer
  cipher : Cipher
  deriving DecidableEq

def Modifiers.initial : Modifiers := ⟨.initial, .initial⟩

/-- What one stage of `recv_modified` hands to the next. -/
structure Received where
  rc : Result
  mods : Modifiers
  bytes : List UInt8
  len : ℕ

/-- What one stage of `send_modified` hands to the next. -/
structure Sending where
  rc : Result
  mods : Modifiers
  bytes : List UInt8

namespace Received

def cipher (B : Botan) (cfg : Config) (msgPos : ℕ) (r : Received) : Run Received := do
  let (c, bytes, newLen) ← Cipher.onRecv B cfg.keyChangeInterval headerLength
    r.mods.cipher.receiver r.bytes msgPos r.len
  return ⟨.ok, { r.mods with cipher.receiver := c }, bytes, newLen⟩

def checksum (B : Botan) (msgPos : ℕ) (r : Received) : Run Received := do
  let (rc, newLen) ← Checksum.onRecv B headerLength r.bytes msgPos r.len
  return { r with rc := rc, len := newLen }

def sequencer (msgPos : ℕ) (r : Received) : Run Received := do
  let (rc, s, newLen) ← r.mods.sequencer.onRecv r.bytes msgPos r.len
  return { r with rc := rc, mods.sequencer := s, len := newLen }

/-- Run a stage that is switched on, unless an earlier one has failed. -/
def stage (on : Bool) (f : Received → Run Received) (r : Received) : Run Received :=
  if r.rc.code && on then f r else return r

end Received

/-- `bits_protocol::recv_modified`; `len` of the result is `final_len`. -/
def recvModified (B : Botan) (cfg : Config) (flags : Flags) (mods : Modifiers)
    (bytes : List UInt8) (msgPos msgLen : ℕ) : Run Received := do
  let r ← Received.stage (cfg.enableCipher && flags.enableCipher)
    (Received.cipher B cfg msgPos) ⟨.ok, mods, bytes, msgLen⟩
  let r ← Received.stage (cfg.enableChecksum && flags.enableChecksum)
    (Received.checksum B msgPos) r
  Received.stage (cfg.enableSequence && flags.enableSequence) (Received.sequencer msgPos) r

namespace Sending

def sequencer (s : Sending) : Run Sending := do
  let (q, bytes) ← s.mods.sequencer.onSend s.bytes 0 s.bytes.length
  return ⟨.ok, { s.mods with sequencer := q }, bytes⟩

def checksum (B : Botan) (s : Sending) : Run Sending := do
  let (rc, bytes) ← Checksum.onSend B headerLength s.bytes 0 s.bytes.length
  return { s with rc := rc, bytes := bytes }

def cipher (B : Botan) (cfg : Config) (s : Sending) : Run Sending := do
  let (c, bytes) ← Cipher.onSend B cfg.keyChangeInterval headerLength
    s.mods.cipher.sender s.bytes 0 s.bytes.length
  return ⟨.ok, { s.mods with cipher.sender := c }, bytes⟩

/-- Run a stage that is switched on, unless an earlier one has failed. -/
def stage (on : Bool) (f : Sending → Run Sending) (s : Sending) : Run Sending :=
  if s.rc.code && on then f s else return s

end Sending

/-- Where `send_final` and `send_modified` hand the finished bytes. -/
inductive Output
  | tcp (bytes : List UInt8)
  | loopback (bytes : List UInt8)
  deriving DecidableEq, Repr

/-- `bits_protocol::send_modified`; there is no output when a modifier fails.
Only the path to the socket stores the length field again. -/
def sendModified (B : Botan) (cfg : Config) (flags : Flags) (mods : Modifiers)
    (bytes : List UInt8) : Run (Result × Modifiers × Option Output) := do
  let len := bytes.length
  let s ← Sending.stage (cfg.enableSequence && flags.enableSequence) Sending.sequencer
    ⟨.ok, mods, bytes⟩
  let s ← Sending.stage (cfg.enableChecksum && flags.enableChecksum) (Sending.checksum B) s
  let s ← Sending.stage (cfg.enableCipher && flags.enableCipher) (Sending.cipher B cfg) s
  if s.rc.code = false then return (s.rc, s.mods, none)
  else if cfg.enableLoopback then return (.ok, s.mods, some (.loopback s.bytes))
  else
    let bytes := if len < s.bytes.length
      then setLength (s.bytes.length % 2 ^ 32) s.bytes 0 else s.bytes
    return (.ok, s.mods, some (.tcp bytes))

/-! ## Sending -/

def needsToModify (cfg : Config) (flags : Flags) : Bool :=
  (cfg.enableCipher && flags.enableCipher) ||
    (cfg.enableChecksum && flags.enableChecksum) ||
      (cfg.enableSequence && flags.enableSequence)

section

variable {P : Type} (E : Env P)

/-- `bits_protocol::pack`: two pad words, the body, then the header fields
over the pads at the front of the buffer. -/
def pack (p : P) (buf : List UInt8) : Result × List UInt8 :=
  let pad : List UInt8 := [0xBA, 0xAB, 0xFE, 0xCA]
  let (body, rc) := E.ops.pack p
  let buf := buf ++ pad ++ pad ++ body
  if rc = false then (.fail .failBitsPackError, buf)
  else (.ok, setTopic (E.ops.topic p) (setLength (buf.length % 2 ^ 32) buf 0) 4)

/-- `bits_protocol::send` with `send_final`, up to the call that takes the frame:
pack into an empty buffer, and run the modifiers where one is in force.  The
result is that of a refusal, or the success of all before that call. -/
def sendFrame (mods : Modifiers) (p : P) : Run (Result × Modifiers × Option Output) :=
  let (rc, frame) := pack E p []
  if rc.code = false then return (rc, mods, none)
  else if needsToModify E.cfg (E.ops.flags p) = false then
    return (.ok, mods, some (if E.cfg.enableLoopback then .loopback frame else .tcp frame))
  else sendModified E.botan E.cfg (E.ops.flags p) mods frame

/-! ## Receiving -/

/-- `bits_protocol`: the receive buffer and the modifiers. -/
structure BitsProtocol where
  recvBuf : ResizeBuffer
  mods : Modifiers

def BitsProtocol.initial : BitsProtocol := ⟨⟨[], 0⟩, .initial⟩

/-- How a call of `on_recv` ends. -/
inductive Exit
  | returned (rc : Result)
  | aborted (a : Abort)
  deriving DecidableEq, Repr

/-- The variables of the receive loop; `iter` is the iterator's offset from
`begin()`, `published` what this call has passed to `publish`. -/
structure LoopState (P : Type) where
  recvBuf : ResizeBuffer
  mods : Modifiers
  iter : ℕ
  processedLen : ℕ
  published : List P

/-- `remained_len`, a `ptrdiff_t`. -/
def LoopState.remainedLen (st : LoopState P) : ℤ := (st.recvBuf.size : ℤ) - st.iter

/-- `n <= x` where `x` is converted from `ptrdiff_t` to `size_t`. -/
def leSize (n : ℕ) (x : ℤ) : Prop := x < 0 ∨ (n : ℤ) ≤ x

instance (n : ℕ) (x : ℤ) : Decidable (leSize n x) :=
  inferInstanceAs (Decidable (x < 0 ∨ (n : ℤ) ≤ x))

/-- A `size_t` converted to `ptrdiff_t`. -/
def toPtrdiff (n : ℕ) : ℤ := if n < 2 ^ 63 then n else (n : ℤ) - 2 ^ 64

/-- One iteration of the loop leaves it to the code behind, returns from
inside it, or goes on. -/
inductive Step (P : Type)
  | leave
  | stop (e : Exit) (st : LoopState P)
  | next (st : LoopState P)

/-- The part of an iteration after `recv_modified` has succeeded: skip the
header with the read cursor, unpack, check and publish. -/
def deliver (st : LoopState P) (mp : P) (msgLen : ℕ) (r : Received) : Step P :=
  let buf : ResizeBuffer := { st.recvBuf with bytes := r.bytes }
  let buf := ((buf.read 4).2.2.read 4).2.2
  let u := E.ops.unpack mp (buf.bytes.drop buf.readPos)
  let buf := { buf with readPos := buf.readPos + u.used }
  let st := { st with recvBuf := buf, mods := r.mods }
  if buf.readPos < r.len then .stop (.returned (.fail .failInsufficientUnpack)) st
  else if u.ok = false then .stop (.returned (.fail .failBitsUnpackError)) st
  else
    let payloadLen := subSize msgLen headerLength
    .next { st with
      published := st.published ++ [u.packet]
      processedLen := st.processedLen + msgLen
      iter := ((st.iter : ℤ) + headerLength + toPtrdiff payloadLen).toNat }

/-- One iteration of the loop of `bits_protocol::on_recv`, from the test of
its condition on. -/
def onRecvStep (st : LoopState P) : Step P :=
  if ¬ leSize headerLength st.remainedLen then .leave
  else
    let msgLen := getLength st.recvBuf.bytes st.iter
    if E.cfg.maxPacketLength < msgLen then
      .stop (.returned (.fail .failBitsMaxPacketSize)) st
    else if st.remainedLen < msgLen then .leave
    else match E.factory (getTopic st.recvBuf.bytes (st.iter + 4)) with
      | none => .stop (.returned (.fail .failBitsMessageNotRegistered)) st
      | some mp =>
          match (recvModified E.botan E.cfg (E.ops.flags mp) st.mods st.recvBuf.bytes
              st.processedLen msgLen).out with
          | .error a => .stop (.aborted a) st
          | .ok r =>
              if r.rc.code = false then
                .stop (.returned r.rc)
                  { st with recvBuf.bytes := r.bytes, mods := r.mods }
              else deliver E st mp msgLen r

/-- The loop and the code behind it, for at most `fuel` iterations; `none`
means that it is still running. -/
def onRecvLoop : ℕ → LoopState P → Option (Exit × LoopState P)
  | 0, _ => none
  | fuel + 1, st =>
      match onRecvStep E st with
      | .next st => onRecvLoop fuel st
      | .stop e st => some (e, st)
      | .leave =>
          match (if 0 < st.processedLen then st.recvBuf.popFront st.processedLen
            else some st.recvBuf) with
          | none => some (.aborted .thrown, st)
          | some buf => some (.returned .ok, { st with recvBuf := buf })

/-- The loop's variables when it is entered. -/
def BitsProtocol.enter (proto : BitsProtocol) (bytes : List UInt8) : LoopState P :=
  ⟨proto.recvBuf.append bytes, proto.mods, 0, 0, []⟩

/-- `bits_protocol::on_recv`: how the call ends, the object after it and the
packets it has published. -/
def onRecv (fuel : ℕ) (proto : BitsProtocol) (bytes : List UInt8) :
    Option (Exit × BitsProtocol × List P) :=
  if bytes = [] then some (.returned (.fail .failZeroSizeData), proto, [])
  else (onRecvLoop E fuel (proto.enter bytes)).map fun (e, st) ↦
    (e, ⟨st.recvBuf, st.mods⟩, st.published)

/-- How a call of `send` ends, the object after it, the packets it has published
and the bytes it has given to `tcp_protocol::send`. -/
structure Sent (P : Type) where
  exit : Exit
  proto : BitsProtocol
  published : List P
  appended : Option (List UInt8)

/-- `bits_protocol::send`: the result is what `session_->send` answers, and with
the loopback what `on_recv` does. -/
def send (fuel : ℕ) (session : List UInt8 → Result) (proto : BitsProtocol) (p : P) :
    Option (Sent P) :=
  match (sendFrame E proto.mods p).out with
  | .error a => some ⟨.aborted a, proto, [], none⟩
  | .ok (rc, mods, none) => some ⟨.returned rc, { proto with mods }, [], none⟩
  | .ok (_, mods, some (.tcp bytes)) =>
      some ⟨.returned (session bytes), { proto with mods }, [], some bytes⟩
  | .ok (_, mods, some (.loopback bytes)) =>
      (onRecv E fuel { proto with mods } bytes).map fun (e, proto, ps) ↦ ⟨e, proto, ps, none⟩

/-- Successive calls of `on_recv` with the given chunks: every call's end, the
object after the last one and all packets published. -/
def onRecvAll (fuel : ℕ) : BitsProtocol → List (List UInt8) →
    Option (List Exit × BitsProtocol × List P)
  | proto, [] => some ([], proto, [])
  | proto, c :: cs => do
      let (e, proto, ps) ← onRecv E fuel proto c
      let (es, proto, qs) ← onRecvAll fuel proto cs
      return (e :: es, proto, ps ++ qs)

end

end WiseKernel.Net
