import WiseKernel.Client.Modifier

/-!
# The client's protocol

`Protocol.OnSend` appends a frame to a stream that several messages share, and
`Protocol.OnRecv` cuts the bytes received into frames.  The receive loop is
kept as the source has it: it looks at a header as soon as one is there, and
the rest of the bytes goes to the caller's array.
-/

namespace WiseKernel.Client

open WiseKernel.Lib WiseKernel.Net

/-! ## Packets -/

/-- How `Packet.Unpack` ends. -/
inductive Ending
  | accepted
  | refused
  | thrown
  deriving DecidableEq, Repr

/-- What `Packet.Unpack` leaves: the filled packet, the number of bytes it
asked the stream for, and the scratch arrays of the packer. -/
structure Unpacked (P S : Type) where
  ending : Ending
  packet : P
  used : ℕ
  packer : S

/-- The virtual functions of a family of packet classes.  `unpack` sees the
bytes from the stream's position to its end; `Stream.Read` gives less than is
asked for at the end, and the scratch arrays keep their old contents there.
While the stream has all that is asked for, the result depends on these bytes
alone. -/
structure PacketOps (P S : Type) where
  topic : P → UInt32
  flags : P → Flags
  pack : P → List UInt8 × Bool
  unpack : P → S → List UInt8 → Unpacked P S
  unpack_congr : ∀ p s s' bs bs', (unpack p s bs).used ≤ bs.length →
    bs'.take (unpack p s bs).used = bs.take (unpack p s bs).used →
      (unpack p s' bs').ending = (unpack p s bs).ending ∧
      (unpack p s' bs').packet = (unpack p s bs).packet ∧
      (unpack p s' bs').used = (unpack p s bs).used

/-- What a protocol object uses and does not own. -/
structure Env (P S : Type) where
  ops : PacketOps P S
  runtime : Runtime
  settings : Settings
  factory : UInt32 → Option P

/-! ## The modifier pipeline -/

/-- The modifiers of one protocol object that have a state. -/
structure Modifiers where
  sequence : SequenceModifier
  cipher : CipherModifier
  deriving DecidableEq

def Modifiers.initial : Modifiers := ⟨.initial, .initial⟩

/-- The options that the settings leave in force. -/
def Settings.inForce (S : Settings) (flags : Flags) : Flags where
  enableSequence := S.enableSequence && flags.enableSequence
  enableChecksum := S.enableChecksum && flags.enableChecksum
  enableCipher := S.enableCipher && flags.enableCipher

/-- What one stage of `ModifySend` hands to the next; none of them fails. -/
structure Sending where
  mods : Modifiers
  packetBuf : BackedStream

namespace Sending

def sequence (R : Runtime) (start : ℤ) (s : Sending) : Call Sending := do
  let (m, packetBuf) ← s.mods.sequence.modifySend R s.packetBuf start
  return ⟨{ s.mods with sequence := m }, packetBuf⟩

def checksum (R : Runtime) (start : ℤ) (s : Sending) : Call Sending := do
  let packetBuf ← ChecksumModifier.modifySend R s.packetBuf start
  return { s with packetBuf := packetBuf }

def cipher (R : Runtime) (S : Settings) (start : ℤ) (s : Sending) : Call Sending := do
  let (c, packetBuf) ← s.mods.cipher.modifySend R S s.packetBuf start
  return ⟨{ s.mods with cipher := c }, packetBuf⟩

/-- Run a stage that is switched on. -/
def stage (on : Bool) (f : Sending → Call Sending) (s : Sending) : Call Sending :=
  if on then f s else return s

end Sending

/-- `Protocol.ModifySend`. -/
def modifySend (R : Runtime) (S : Settings) (flags : Flags) (m : Modifiers)
    (packetBuf : BackedStream) (start : ℤ) : Call Sending := do
  let on := S.inForce flags
  let s ← Sending.stage on.enableSequence (Sending.sequence R start) ⟨m, packetBuf⟩
  let s ← Sending.stage on.enableChecksum (Sending.checksum R start) s
  Sending.stage on.enableCipher (Sending.cipher R S start) s

/-- What one stage of `ModifyRecv` hands to the next. -/
structure Received where
  code : Code
  mods : Modifiers
  packetBuf : BackedStream

namespace Received

def cipher (R : Runtime) (S : Settings) (start : ℤ) (r : Received) : Call Received := do
  let (c, packetBuf) ← r.mods.cipher.modifyRecv R S r.packetBuf start
  return ⟨.success, { r.mods with cipher := c }, packetBuf⟩

def checksum (R : Runtime) (start : ℤ) (r : Received) : Call Received := do
  let (code, packetBuf) ← ChecksumModifier.modifyRecv R r.packetBuf start
  return { r with code := code, packetBuf := packetBuf }

def sequence (start : ℤ) (r : Received) : Call Received := do
  let (code, s, packetBuf) ← r.mods.sequence.modifyRecv r.packetBuf start
  return ⟨code, { r.mods with sequence := s }, packetBuf⟩

/-- Run a stage that is switched on, unless an earlier one has failed. -/
def stage (on : Bool) (f : Received → Call Received) (r : Received) : Call Received :=
  if r.code = .success ∧ on then f r else return r

end Received

/-- `Protocol.ModifyRecv`. -/
def modifyRecv (R : Runtime) (S : Settings) (flags : Flags) (m : Modifiers)
    (packetBuf : BackedStream) (start : ℤ) : Call Received := do
  let on := S.inForce flags
  let r ← Received.stage on.enableCipher (Received.cipher R S start) ⟨.success, m, packetBuf⟩
  let r ← Received.stage on.enableChecksum (Received.checksum R start) r
  Received.stage on.enableSequence (Received.sequence start) r

/-! ## Protocol -/

/-- `Protocol`: the receive buffer, the scratch arrays of its packer and the
modifiers. -/
structure Protocol (S : Type) where
  recvBuf : BackedStream
  packer : S
  mods : Modifiers

def Protocol.initial {S : Type} (packer : S) : Protocol S := ⟨.empty, packer, .initial⟩

section

variable {P S : Type} (E : Env P S)

/-- The bytes of `"CAFEABBA"`. -/
def dummyHeader : List UInt8 := [0x43, 0x41, 0x46, 0x45, 0x41, 0x42, 0x42, 0x41]

/-- `Protocol.OnSend`.  Nothing reads the capacity of the send buffer, so the
writes of `Packet.Pack` are one. -/
def onSend (m : Modifiers) (packet : P) (sendBuf : BackedStream) :
    Call (Code × Modifiers × BackedStream) := do
  let start : ℤ := sendBuf.position
  let (body, rc) := E.ops.pack packet
  let sendBuf := (sendBuf.write E.runtime.grow dummyHeader).write E.runtime.grow body
  if rc = false then return (.failMessagePack, m, sendBuf)
  else
    let sendBuf ← setMessageLength sendBuf start ((sendBuf.position - start).toNat % 2 ^ 32)
    let sendBuf ← setMessageTopic sendBuf start (E.ops.topic packet)
    let sent ← modifySend E.runtime E.settings (E.ops.flags packet) m sendBuf start
    let sendBuf ← setMessageLength sent.packetBuf start
      ((sent.packetBuf.position - start).toNat % 2 ^ 32)
    return (.success, sent.mods, sendBuf)

/-- How a call of `OnRecv` ends. -/
inductive Exit
  | returned (code : Code)
  | faulted (f : Fault)
  deriving DecidableEq, Repr

/-- The variables of the receive loop; `posted` is what this call has passed
to `Network.Post`.  Positions are sums of lengths of arrays and below `2 ^ 31`. -/
structure LoopState (P S : Type) where
  recvBuf : BackedStream
  packer : S
  mods : Modifiers
  currentPosition : ℕ
  totalProcessedLen : ℕ
  posted : List P

/-- One iteration leaves the loop to the code behind, ends the call inside it,
or goes on. -/
inductive Step (P S : Type)
  | leave
  | stop (e : Exit) (st : LoopState P S)
  | next (st : LoopState P S)

/-- The part of an iteration after `ModifyRecv` has succeeded. -/
def deliver (st : LoopState P S) (packet : P) (messageLength : ℕ) (r : Received) : Step P S :=
  let start := st.currentPosition + headerSize.toNat
  let u := E.ops.unpack packet st.packer ((r.packetBuf.buffer.take r.packetBuf.length).drop start)
  let st := { st with
    recvBuf := r.packetBuf.seek (min (start + u.used) (max start r.packetBuf.length))
    packer := u.packer
    mods := r.mods }
  match u.ending with
  | .thrown => .stop (.faulted .unpack) st
  | .refused => .stop (.returned .failMessageUnpack) st
  | .accepted => .next { st with
      posted := st.posted ++ [u.packet]
      totalProcessedLen := st.totalProcessedLen + messageLength
      currentPosition := st.currentPosition + messageLength }

/-- One iteration of the loop of `Protocol.OnRecv`, from the test of its
condition on. -/
def onRecvStep (recvBufLength : ℕ) (st : LoopState P S) : Step P S :=
  if (recvBufLength : ℤ) - st.currentPosition < headerSize then .leave
  else
    match getMessageLength st.recvBuf st.currentPosition with
    | .error f => .stop (.faulted f) st
    | .ok messageLength =>
        if E.settings.maxPacketSize < messageLength then
          .stop (.returned .failTooLargeMessage) st
        else
          match getMessageTopic st.recvBuf st.currentPosition with
          | .error f => .stop (.faulted f) st
          | .ok topic =>
              match E.factory topic with
              | none => .stop (.returned .failMessageNotRegistered) st
              | some packet =>
                  match modifyRecv E.runtime E.settings (E.ops.flags packet) st.mods st.recvBuf
                      st.currentPosition with
                  | .error f => .stop (.faulted f) st
                  | .ok r =>
                      if r.code ≠ .success then
                        .stop (.returned r.code) { st with recvBuf := r.packetBuf, mods := r.mods }
                      else deliver E st packet messageLength r

/-- What a call of `OnRecv` leaves: how it ended, the object, the packets
posted and the caller's array. -/
structure Outcome (P S : Type) where
  exit : Exit
  proto : Protocol S
  posted : List P
  buf : List UInt8

/-- The code behind the loop: what has not been processed is copied to the
caller's array, and the position is set to its length. -/
def carryOver (recvBufLength : ℕ) (st : LoopState P S) (buf : List UInt8) : Outcome P S :=
  let rest : ℤ := (recvBufLength : ℤ) - st.totalProcessedLen
  let proto : Protocol S := ⟨st.recvBuf, st.packer, st.mods⟩
  match st.recvBuf.peek st.totalProcessedLen rest >>= writeArray buf 0 with
  | .error f => ⟨.faulted f, proto, st.posted, buf⟩
  | .ok buf => ⟨.returned .success, { proto with recvBuf := st.recvBuf.seek rest.toNat },
      st.posted, buf⟩

/-- The loop and the code behind it, for at most `fuel` iterations; `none`
means that it is still running. -/
def onRecvLoop (recvBufLength : ℕ) (buf : List UInt8) : ℕ → LoopState P S → Option (Outcome P S)
  | 0, _ => none
  | fuel + 1, st =>
      match onRecvStep E recvBufLength st with
      | .next st => onRecvLoop recvBufLength buf fuel st
      | .stop e st => some ⟨e, ⟨st.recvBuf, st.packer, st.mods⟩, st.posted, buf⟩
      | .leave => some (carryOver recvBufLength st buf)

/-- The receive buffer with the new bytes. -/
def Protocol.received (R : Runtime) (proto : Protocol S) (buf : List UInt8) (recvLen : ℕ) :
    BackedStream :=
  proto.recvBuf.write R.grow (buf.take recvLen)

/-- The loop's variables when it is entered. -/
def Protocol.enter (R : Runtime) (proto : Protocol S) (buf : List UInt8) (recvLen : ℕ) :
    LoopState P S :=
  ⟨proto.received R buf recvLen, proto.packer, proto.mods, 0, 0, []⟩

/-- `Protocol.OnRecv` with the first `recvLen` bytes of an array. -/
def onRecv (fuel : ℕ) (proto : Protocol S) (buf : List UInt8) (recvLen : ℕ) :
    Option (Outcome P S) :=
  if buf.length < recvLen then some ⟨.faulted .outside, proto, [], buf⟩
  else
    let recvBuf := proto.received E.runtime buf recvLen
    if (recvBuf.position : ℤ) < headerSize then
      some ⟨.returned .success, { proto with recvBuf := recvBuf }, [], buf⟩
    else onRecvLoop E recvBuf.position buf fuel (proto.enter E.runtime buf recvLen)

end

end WiseKernel.Client
