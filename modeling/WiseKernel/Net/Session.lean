import Mathlib.Logic.Equiv.Basic
import WiseKernel.Net.Pipeline

/-!
# Whole sessions through the modifiers

A run of messages sent by one protocol object and received in order by its
peer.  Whatever the options, the bodies and the places of the frames in the
receive buffer, every message arrives and the two ends stay in step.
-/

namespace WiseKernel.Net

open WiseKernel.Lib

def Output.bytes : Output → List UInt8
  | .tcp bytes => bytes
  | .loopback bytes => bytes

/-- One message of a run: the packed frame, its options, and what stands
around it in the buffer of the receiver. -/
structure Message where
  flags : Flags
  header : List UInt8
  body : List UInt8
  before : List UInt8
  after : List UInt8
  header_length : header.length = headerLength

def Message.frame (msg : Message) : List UInt8 := msg.header ++ msg.body

/-- `send_modified` on one side and `recv_modified` on the other, for one
message, with everything the receiver may rely on afterwards. -/
structure Exchanged (B : Botan) (cfg : Config) (msg : Message) (s r s' r' : Modifiers) : Prop where
  exchange : ∃ (o : Output) (frame : List UInt8),
    (sendModified B cfg msg.flags s msg.frame).out = .ok (.ok, s', some o) ∧
    (recvModified B cfg msg.flags r (msg.before ++ o.bytes ++ msg.after) msg.before.length
      o.bytes.length).out =
        .ok ⟨.ok, r', msg.before ++ frame ++ msg.after, msg.frame.length⟩ ∧
    frame.length = o.bytes.length ∧
    window frame 4 4 = window msg.frame 4 4 ∧
    window frame headerLength (msg.frame.length - headerLength) = msg.body
  inStep : InStep s' r'

/-- Every message of the run is exchanged, one after another. -/
def LockstepRun (B : Botan) (cfg : Config) : Modifiers → Modifiers → List Message → Prop
  | _, _, [] => True
  | s, r, msg :: msgs => ∃ s' r', Exchanged B cfg msg s r s' r' ∧ LockstepRun B cfg s' r' msgs

/-- One message between two ends that are in step. -/
theorem exists_exchanged {B : Botan} (hB : B.Lawful) {cfg : Config}
    (hint : cfg.keyChangeInterval ≠ 0) {s r : Modifiers} (h : InStep s r) (msg : Message) :
    ∃ s' r', Exchanged B cfg msg s r s' r' := by
  have hh : msg.header.length = 8 := msg.header_length
  obtain ⟨s', wire, hwrap⟩ := wrapBody_isSome hB cfg msg.flags s msg.body
  obtain ⟨r', hunwrap, hstep⟩ := unwrapBody_wrapBody hB hint h hwrap
  obtain ⟨header', hkept, hsend⟩ := sendModified_of_wrapBody hB (fun _ _ ↦ hint) hh hwrap
  -- on both paths the frame is some header with the same topic, then the wire body
  obtain ⟨o, head, hsent, hbytes, hlen, htopic⟩ : ∃ (o : Output) (head : List UInt8),
      (sendModified B cfg msg.flags s msg.frame).out = .ok (.ok, s', some o) ∧
        o.bytes = head ++ wire ∧ head.length = 8 ∧ head.drop 4 = msg.header.drop 4 := by
    cases hloop : cfg.enableLoopback with
    | true =>
        exact ⟨.loopback (header' ++ wire), header',
          by simpa [hloop, Message.frame] using hsend, rfl,
          hkept.length_eq, hkept.topic_eq⟩
    | false =>
        refine ⟨.tcp (wireHeader msg.header msg.body wire ++ wire), _,
          by simpa [hloop, Message.frame] using hsend, rfl, ?_, ?_⟩ <;>
        · unfold wireHeader
          split_ifs <;> simp [fieldBytes, hh]
  obtain ⟨junk, hjunk, hrecv⟩ := recvModified_of_unwrapBody hB hunwrap msg.before hlen
    msg.after
  have hframe : msg.frame.length = 8 + msg.body.length := by simp [Message.frame, hh]
  refine ⟨s', r', ⟨o, head ++ (msg.body ++ junk), hsent, ?_, ?_, ?_, ?_⟩, hstep⟩
  · have hlenBytes : o.bytes.length = 8 + wire.length := by simp [hbytes, hlen]
    rw [hlenBytes, hbytes, hframe, ← List.append_assoc, hrecv]
    simp
  · simp [hbytes, hjunk]
  · have htake : ∀ xs ys : List UInt8, xs.length = 8 → window (xs ++ ys) 4 4 = xs.drop 4 := by
      intro xs ys hxs
      rw [window, List.drop_append_of_le_length (by omega), List.take_left' (by simp [hxs])]
    rw [htake _ _ hlen, Message.frame, htake _ _ hh, htopic]
  · rw [← List.append_assoc]
    exact window_append head msg.body junk hlen.symm (by simp [hframe, headerLength])

/-- The two pipelines over a whole run, from any two ends that are in step. -/
theorem lockstepRun {B : Botan} (hB : B.Lawful) {cfg : Config}
    (hint : 1 ≤ cfg.keyChangeInterval) {s r : Modifiers} (h : InStep s r)
    (msgs : List Message) : LockstepRun B cfg s r msgs := by
  induction msgs generalizing s r with
  | nil => trivial
  | cons msg msgs ih =>
      obtain ⟨s', r', hx⟩ := exists_exchanged hB (Nat.one_le_iff_ne_zero.mp hint) h msg
      exact ⟨s', r', hx, ih hx.inStep⟩

/-! ## Two messages with the library's own answers -/

/-- PKCS7 padding of the last piece of a message. -/
def pkcs7 (last : List UInt8) : List UInt8 :=
  last ++ List.replicate (blockSize - last.length) (UInt8.ofNat (blockSize - last.length))

def unpad (block : List UInt8) : Option (List UInt8) :=
  block.getLast?.map fun n ↦ block.take (block.length - n.toNat)

theorem length_pkcs7 {last : List UInt8} (h : last.length < blockSize) :
    (pkcs7 last).length = blockSize := by
  simp only [pkcs7, List.length_append, List.length_replicate]
  omega

theorem getLast?_pkcs7 {last : List UInt8} (h : last.length < blockSize) :
    (pkcs7 last).getLast? = some (UInt8.ofNat (blockSize - last.length)) := by
  have hne : blockSize - last.length ≠ 0 := by omega
  simp [pkcs7, List.getLast?_append, List.getLast?_replicate, hne]

theorem unpad_pkcs7 {last : List UInt8} (h : last.length < blockSize) :
    unpad (pkcs7 last) = some last := by
  have hbyte : (UInt8.ofNat (blockSize - last.length)).toNat = blockSize - last.length := by
    rw [UInt8.toNat_ofNat']
    simp only [blockSize] at h ⊢
    omega
  have hcut : blockSize - (blockSize - last.length) = last.length := by omega
  rw [unpad, getLast?_pkcs7 h, Option.map_some, length_pkcs7 h, hbyte, hcut, pkcs7,
    List.take_left]

/-- An answer of the real cipher to a message that is shorter than a block. -/
structure Answer where
  key : Block
  nonce : Block
  plain : { l : List UInt8 // l.length < blockSize }
  text : Block

namespace Answer

variable (a : Answer) (k n : Block)

/-- At the key and the nonce of the answer its text and the padded message
change places. -/
def exchange (blocks c : List UInt8) : List UInt8 :=
  if k = a.key ∧ n = a.nonce ∧ blocks = [] then Equiv.swap (pkcs7 a.plain.1) a.text.1 c else c

theorem exchange_exchange (blocks c : List UInt8) :
    a.exchange k n blocks (a.exchange k n blocks c) = c := by
  unfold exchange
  split_ifs
  · exact Equiv.swap_apply_self _ _ c
  · rfl

theorem length_exchange (blocks c : List UInt8) :
    (a.exchange k n blocks c).length = c.length := by
  have hpadded := length_pkcs7 a.plain.2
  unfold exchange
  split_ifs with h
  · rw [Equiv.swap_apply_def]
    split_ifs with hplain htext
    · rw [hplain, hpadded, a.text.2]
    · rw [htext, hpadded, a.text.2]
    · rfl
  · rfl

theorem exchange_of_length {blocks blocks' : List UInt8} (h : blocks.length = blocks'.length) :
    a.exchange k n blocks = a.exchange k n blocks' := by
  have hnil : blocks = [] ↔ blocks' = [] := by
    rw [← List.length_eq_zero_iff, h, List.length_eq_zero_iff]
  funext c
  simp only [exchange, hnil]

end Answer

/-- The library with one answer of the real cipher. -/
def Botan.answering (B : Botan) (a : Answer) : Botan :=
  { B with
    encryption := { B.encryption with
      finish := fun k n blocks last ↦
        (B.encryption.finish k n blocks last).map (a.exchange k n blocks) }
    decryption := { B.decryption with
      finish := fun k n blocks last ↦
        B.decryption.finish k n blocks (a.exchange k n blocks last) } }

theorem Botan.Lawful.answering {B : Botan} (hB : B.Lawful) (a : Answer) :
    (B.answering a).Lawful where
  crc32_available := hB.crc32_available
  encrypt_length := hB.encrypt_length
  encrypt_finish k n x last hx hlast := by
    obtain ⟨c, hfinish, hlen⟩ := hB.encrypt_finish k n x last hx hlast
    refine ⟨a.exchange k n x c, ?_, ?_⟩
    · change (B.encryption.finish k n x last).map _ = _
      rw [hfinish]
      rfl
    · rw [a.length_exchange, hlen]
  decrypt_length := hB.decrypt_length
  decrypt_finish_length k n x last plain hlast hplain := by
    apply hB.decrypt_finish_length k n x _ plain _ hplain
    rw [a.length_exchange, hlast]
  decrypt_process := hB.decrypt_process
  decrypt_finish k n x last c hx hlast hc := by
    obtain ⟨c', hfinish, rfl⟩ := Option.map_eq_some_iff.mp hc
    change B.decryption.finish k n (B.encryption.process k n x)
      (a.exchange k n (B.encryption.process k n x) (a.exchange k n x c')) = some last
    rw [a.exchange_of_length k n (hB.encrypt_length k n x hx), a.exchange_exchange]
    exact hB.decrypt_finish k n x last c' hx hlast hfinish

/-- A cipher that pads and does nothing else. -/
def paddingBotan (crc32 : List UInt8 → { l : List UInt8 // l.length = 4 })
    (sha1 : List UInt8 → { l : List UInt8 // l.length = 20 }) : Botan where
  crc32 := some crc32
  sha1 := sha1
  encryption := { process := fun _ _ x ↦ x, finish := fun _ _ _ last ↦ some (pkcs7 last) }
  decryption := { process := fun _ _ x ↦ x, finish := fun _ _ _ last ↦ unpad last }

theorem paddingBotan_lawful {crc32 : List UInt8 → { l : List UInt8 // l.length = 4 }}
    {sha1 : List UInt8 → { l : List UInt8 // l.length = 20 }} :
    (paddingBotan crc32 sha1).Lawful where
  crc32_available := rfl
  encrypt_length _ _ _ _ := rfl
  encrypt_finish _ _ _ last _ hlast := ⟨pkcs7 last, rfl, length_pkcs7 hlast⟩
  decrypt_length _ _ _ _ := rfl
  decrypt_finish_length _ _ _ last plain hlast hplain := by
    obtain ⟨b, -, rfl⟩ := Option.map_eq_some_iff.mp hplain
    simp [hlast]
  decrypt_process _ _ _ _ := rfl
  decrypt_finish _ _ _ last c _ hlast hc := by
    obtain rfl := Option.some.inj hc
    exact unpad_pkcs7 hlast

theorem length_zeroCrc : ([0, 0, 0, 0] : List UInt8).length = 4 := rfl

theorem length_zeroHash : (List.replicate 20 (0 : UInt8)).length = 20 := rfl

/-- The plaintexts of two two-byte bodies behind sequence number and checksum. -/
def samplePlain : List UInt8 := [0x68, 0x69, 0x01, 0x7A, 0xBD, 0xA3, 0xF2]

def secondPlain : List UInt8 := [0x6F, 0x6B, 0x02, 0xD4, 0xCD, 0x86, 0x4F]

def sampleText : List UInt8 :=
  [0xDF, 0x17, 0x36, 0x9E, 0x52, 0x25, 0xFC, 0x5F, 0xEA, 0x46, 0x9A, 0x46, 0x8F, 0xB9, 0x2B, 0xD5]

def secondText : List UInt8 :=
  [0xE4, 0x7B, 0x9B, 0xEC, 0xB7, 0x5A, 0xE7, 0x9F, 0x54, 0x6E, 0xEB, 0xEF, 0x96, 0xBC, 0x57, 0xCF]

/-- The hash of the first plaintext; its front is the key and the nonce of the
second message. -/
def sampleHash : List UInt8 :=
  [0xB5, 0x08, 0x72, 0xCE, 0x4F, 0x77, 0xCE, 0xD4, 0xDF, 0xD2,
    0x7D, 0x7E, 0x44, 0x1A, 0x71, 0x67, 0xA5, 0x5F, 0xBE, 0x06]

def secondKey : Block := ⟨sampleHash.take blockSize, rfl⟩

def sampleAnswer : Answer where
  key := CipherImpl.initial.key
  nonce := CipherImpl.initial.nonce
  plain := ⟨samplePlain, by decide⟩
  text := ⟨sampleText, rfl⟩

def secondAnswer : Answer where
  key := secondKey
  nonce := secondKey
  plain := ⟨secondPlain, by decide⟩
  text := ⟨secondText, rfl⟩

def sampleCrc32 (x : List UInt8) : { l : List UInt8 // l.length = 4 } :=
  if x = [0x68, 0x69, 0x01] then ⟨[0x7A, 0xBD, 0xA3, 0xF2], rfl⟩
  else if x = [0x6F, 0x6B, 0x02] then ⟨[0xD4, 0xCD, 0x86, 0x4F], rfl⟩
  else ⟨[0, 0, 0, 0], length_zeroCrc⟩

def sampleSha1 (x : List UInt8) : { l : List UInt8 // l.length = 20 } :=
  if x = samplePlain then ⟨sampleHash, rfl⟩
  else if x = secondPlain ++ sampleHash then
    ⟨[0xA1, 0xD7, 0x8C, 0x8A, 0xFB, 0xD5, 0x80, 0x67, 0x9E, 0x08,
      0x9E, 0x5C, 0xFF, 0xCC, 0x65, 0xC5, 0x97, 0x53, 0xFD, 0x0B], rfl⟩
  else ⟨List.replicate 20 0, length_zeroHash⟩

/-- A library that answers the two messages as the real one does, and every
other call with the padding alone. -/
def sampleBotan : Botan :=
  ((paddingBotan sampleCrc32 sampleSha1).answering sampleAnswer).answering secondAnswer

theorem sampleBotan_lawful : sampleBotan.Lawful :=
  (paddingBotan_lawful.answering sampleAnswer).answering secondAnswer

/-- A message with all three modifiers, in the middle of a buffer. -/
def sampleMessage : Message where
  flags := ⟨true, true, true⟩
  header := [0x0A, 0x00, 0x00, 0x00, 0x01, 0x00, 0x01, 0x02]
  body := [0x68, 0x69]
  before := [0xEE, 0xEE, 0xEE]
  after := [0x08]
  header_length := rfl

/-- The next one has its number and its key from the first. -/
def secondMessage : Message :=
  { sampleMessage with body := [0x6F, 0x6B], before := [], after := [] }

theorem lockstepRun_sample :
    LockstepRun sampleBotan {} Modifiers.initial Modifiers.initial
      [sampleMessage, secondMessage] :=
  lockstepRun sampleBotan_lawful (by decide) InStep.initial [sampleMessage, secondMessage]

example :
    ((sendModified sampleBotan {} ⟨true, true, true⟩ .initial sampleMessage.frame).out.toOption.bind
      fun sent ↦ (sendModified sampleBotan {} ⟨true, true, true⟩ sent.2.1
        secondMessage.frame).out.toOption.bind fun sent ↦ sent.2.2.map Output.bytes) =
      some ([24, 0, 0, 0, 0x01, 0x00, 0x01, 0x02] ++ secondText) := by
  rfl

end WiseKernel.Net
