import WiseKernel.Client.Frames
import WiseKernel.Net.Session

/-!
# Sender and receiver in step

A run of messages that one protocol object sends and another receives, a whole
frame for each call.  The key schedule hashes the whole array of a work stream
that is used again for every message, so the two sides stay in step only
because their streams have the same history.
-/

namespace WiseKernel.Client

open WiseKernel.Lib WiseKernel.Net

variable {P S : Type} {E : Env P S}

/-- The receiver's direction is where the sender's is. -/
structure InStep (sender receiver : Modifiers) : Prop where
  cipher : receiver.cipher.recevier = sender.cipher.sender
  sequence : receiver.sequence.recvSeq = sender.sequence.sendSeq

theorem InStep.initial : InStep .initial .initial := ⟨rfl, rfl⟩

/-- Both sides move on with the same plaintext. -/
theorem InStep.advance {m r : Modifiers} (h : InStep m r) (R : Runtime) (S : Settings)
    (on : Flags) (body : List UInt8) :
    InStep (m.sent R S on body) (r.received R S on body) := by
  constructor
  · simp only [Modifiers.sent, Modifiers.received, h.sequence]
    split_ifs
    · rw [h.cipher]
    · exact h.cipher
  · simp only [Modifiers.sent, Modifiers.received]
    split_ifs
    · rw [h.sequence]
    · exact h.sequence

theorem InStep.opens {m r : Modifiers} (h : InStep m r) {R : Runtime} (hR : R.Lawful)
    (on : Flags) (body : List UInt8) : Opens R on r (wire R on m body) body := by
  simp only [Opens, wire, h.sequence, h.cipher]
  split_ifs
  · exact ⟨hR.decrypt_encrypt _ _ _, by rw [hR.encrypt_length]; omega⟩
  · rfl

/-! ## One frame in one call -/

/-- A frame at the front of an empty receive buffer. -/
theorem received_frame {recv : Protocol S} (hempty : recv.recvBuf.position = 0) (R : Runtime)
    (n : ℕ) (topic : UInt32) (text extra : List UInt8) :
    Framed (recv.received R (header n topic ++ text ++ extra) (8 + text.length)) [] n topic text ∧
      (recv.received R (header n topic ++ text ++ extra) (8 + text.length)).position =
        8 + text.length ∧
      8 + text.length ≤
        (recv.received R (header n topic ++ text ++ extra) (8 + text.length)).length := by
  have htake : (header n topic ++ text ++ extra).take (8 + text.length) = header n topic ++ text :=
    List.take_left' (by simp)
  obtain ⟨rest, hbuffer, hposition, hinside⟩ := BackedStream.write_cut (s := recv.recvBuf) R.grow
    [] recv.recvBuf.buffer rfl hempty (by omega) (header n topic ++ text)
  have hpos : (recv.recvBuf.write R.grow (header n topic ++ text)).position = 8 + text.length := by
    rw [hposition]
    simp
  rw [Protocol.received, htake]
  refine ⟨⟨rest, by rw [hbuffer]; simp⟩, hpos, ?_⟩
  rw [← hpos]
  exact hinside

/-- `OnRecv` with one whole frame that opens. -/
theorem onRecv_frame {packet created : P} {body : List UInt8}
    (hreg : Registered E packet body created) {recv : Protocol S}
    (hempty : recv.recvBuf.position = 0)
    (hdiv : Modifiers.Divide E (E.ops.flags packet) recv.mods.cipher.recevier)
    {text : List UInt8} (hmax : ((8 + text.length : ℕ) : ℤ) ≤ E.settings.maxPacketSize)
    (hopen : Opens E.runtime (E.settings.inForce (E.ops.flags packet)) recv.mods text body)
    (extra : List UInt8) :
    ∃ r recv' buf',
      modifyRecv E.runtime E.settings (E.ops.flags created) recv.mods
        (recv.received E.runtime
          (header (8 + text.length) (E.ops.topic packet) ++ text ++ extra) (8 + text.length)) 0 =
        .ok r ∧
      r.code = .success ∧ Framed r.packetBuf [] (8 + body.length) (E.ops.topic packet) body ∧
      onRecv E 2 recv (header (8 + text.length) (E.ops.topic packet) ++ text ++ extra)
        (8 + text.length) = some ⟨.returned .success, recv', [packet], buf'⟩ ∧
      recv'.mods = recv.mods.received E.runtime E.settings
        (E.settings.inForce (E.ops.flags packet)) body ∧
      recv'.recvBuf.position = 0 := by
  set on := E.settings.inForce (E.ops.flags packet) with hon
  set buf := header (8 + text.length) (E.ops.topic packet) ++ text ++ extra with hbuf
  obtain ⟨hframed, hposition, hlength⟩ := received_frame hempty E.runtime (8 + text.length)
    (E.ops.topic packet) text extra
  rw [← hbuf] at hframed hposition hlength
  set st : LoopState P S := recv.enter E.runtime buf (8 + text.length) with hst
  have hlt := E.settings.maxPacketSize_lt
  obtain ⟨s', hmod, hbody, hlen', -⟩ := modifyRecv_eq
    (m := recv.mods) hdiv hframed (Eq.refl ((0 : ℕ) : ℤ)) (by omega) hopen
  set r : Received := ⟨.success, recv.mods.received E.runtime E.settings on body, s'⟩ with hr
  have hshorter : body.length ≤ text.length := by
    have hle := length_numbered_le E.runtime on recv.mods.sequence.recvSeq body
    have hle' : body.length ≤ (numbered on recv.mods.sequence.recvSeq body).length := by
      unfold numbered
      split_ifs <;> simp
    unfold Opens at hopen
    dsimp only at hopen
    split_ifs at hopen with hcipher
    · omega
    · rw [hopen]
      omega
  have hstart : st.currentPosition = ([] : List UInt8).length := rfl
  obtain ⟨st', hdeliver, hcur, htotal, hposted, hmods, hbuffer, hlen₁⟩ := deliver_eq hreg
    (r := r) hstart hbody
    (by change 0 + 8 + body.length ≤ s'.length; omega) (8 + text.length)
  have hstep : onRecvStep E (8 + text.length) st = .next st' := by
    rw [← hdeliver]
    refine onRecvStep_eq hstart hframed ?_ hmax hreg.creates ?_ rfl
    · change 0 + 8 ≤ 8 + text.length
      omega
    · rw [hreg.flags]
      exact hmod
  have hcur' : st'.currentPosition = 8 + text.length := hcur.trans (Nat.zero_add _)
  have htotal' : st'.totalProcessedLen = 8 + text.length := htotal.trans (Nat.zero_add _)
  have hleave : onRecvStep E (8 + text.length) st' = .leave := by
    rw [onRecvStep, if_pos]
    rw [hcur']
    change _ < (8 : ℤ)
    omega
  have hin : 8 + text.length ≤ st'.recvBuf.buffer.length := by
    calc 8 + text.length ≤ s'.length := by omega
      _ = st'.recvBuf.length := hlen₁.symm
      _ ≤ st'.recvBuf.buffer.length := st'.recvBuf.length_le
  have hfront : (st'.recvBuf.buffer.take (8 + text.length)).length = 8 + text.length := by
    rw [List.length_take, Nat.min_eq_left hin]
  have hcut : st'.recvBuf.buffer = st'.recvBuf.buffer.take (8 + text.length) ++ [] ++
      st'.recvBuf.buffer.drop (8 + text.length) := by
    simp
  have hcarry := carryOver_eq hcut
    (by rw [htotal', hfront]) (hfront.symm.trans (Nat.add_zero _).symm) (Nat.zero_le buf.length)
  refine ⟨r, ⟨st'.recvBuf.seek 0, st'.packer, st'.mods⟩, overwrite buf 0 [], ?_, rfl, hbody, ?_,
    hmods, rfl⟩
  · rw [hreg.flags]
    exact hmod
  · have hnot : ¬ buf.length < 8 + text.length := by
      rw [hbuf]
      simp only [List.length_append, length_header]
      omega
    unfold onRecv
    rw [if_neg hnot]
    dsimp only
    rw [hposition, if_neg (by change ¬ _ < (8 : ℤ); omega), onRecvLoop, ← hst, hstep]
    dsimp only
    rw [onRecvLoop, hleave]
    dsimp only
    rw [hcarry, hposted]
    rfl

/-! ## Runs -/

/-- One message goes through: `OnSend` appends a frame to the shared buffer,
the receiver gets it at the front of an array, `ModifyRecv` restores the length
field and the body, the packet is posted, and the two sides are in step. -/
structure Exchanged (E : Env P S) (packet : P) (extra : List UInt8) (m m' : Modifiers)
    (sendBuf sendBuf' : BackedStream) (recv recv' : Protocol S) : Prop where
  sends : onSend E m packet sendBuf = .ok (.success, m', sendBuf')
  appends : sendBuf.position ≤ sendBuf'.position ∧
    sendBuf'.buffer.take sendBuf.position = sendBuf.buffer.take sendBuf.position
  restores : ∃ created r, E.factory (E.ops.topic packet) = some created ∧
    modifyRecv E.runtime E.settings (E.ops.flags created) recv.mods
      (recv.received E.runtime (appended sendBuf sendBuf' ++ extra)
        (appended sendBuf sendBuf').length) 0 = .ok r ∧
    r.code = .success ∧
    Framed r.packetBuf [] (8 + (E.ops.pack packet).1.length) (E.ops.topic packet)
      (E.ops.pack packet).1
  receives : ∃ buf', onRecv E 2 recv (appended sendBuf sendBuf' ++ extra)
    (appended sendBuf sendBuf').length = some ⟨.returned .success, recv', [packet], buf'⟩
  inStep : InStep m' recv'.mods

/-- A run of messages, each with what stands behind its frame in the array of
the receiver. -/
inductive Lockstep (E : Env P S) : List (P × List UInt8) → Modifiers → BackedStream →
    Protocol S → Prop
  | nil (m : Modifiers) (sendBuf : BackedStream) (recv : Protocol S) :
      Lockstep E [] m sendBuf recv
  | cons {packet : P} {extra : List UInt8} {messages : List (P × List UInt8)}
      {m m' : Modifiers} {sendBuf sendBuf' : BackedStream} {recv recv' : Protocol S}
      (first : Exchanged E packet extra m m' sendBuf sendBuf' recv recv')
      (rest : Lockstep E messages m' sendBuf' recv') :
      Lockstep E ((packet, extra) :: messages) m sendBuf recv

/-- A packet that both sides know and whose frame is not larger than the
receiver accepts. -/
structure Acceptable (E : Env P S) (packet : P) : Prop where
  registered : ∃ created, Registered E packet (E.ops.pack packet).1 created
  fits : ((8 + Flags.sealedLength (E.settings.inForce (E.ops.flags packet))
    (E.ops.pack packet).1.length : ℕ) : ℤ) ≤ E.settings.maxPacketSize

theorem Acceptable.exchanged (hR : E.runtime.Lawful) {packet : P} (h : Acceptable E packet)
    (extra : List UInt8) {m : Modifiers} {sendBuf : BackedStream} {recv : Protocol S}
    (hdiv : Modifiers.Divide E (E.ops.flags packet) m.cipher.sender)
    (hin : sendBuf.position ≤ sendBuf.length) (hempty : recv.recvBuf.position = 0)
    (hstep : InStep m recv.mods) :
    ∃ sendBuf' recv', Exchanged E packet extra m
        (m.sent E.runtime E.settings (E.settings.inForce (E.ops.flags packet))
          (E.ops.pack packet).1) sendBuf sendBuf' recv recv' ∧
      sendBuf'.position ≤ sendBuf'.length ∧ recv'.recvBuf.position = 0 := by
  obtain ⟨created, hreg⟩ := h.registered
  set body := (E.ops.pack packet).1 with hbody
  set on := E.settings.inForce (E.ops.flags packet) with hon
  set text := wire E.runtime on m body with htext
  have hmax : ((8 + text.length : ℕ) : ℤ) ≤ E.settings.maxPacketSize := by
    rw [htext, length_wire hR]
    exact h.fits
  have hlt := E.settings.maxPacketSize_lt
  obtain ⟨sendBuf', hsend, hfill⟩ := onSend_eq (fun _ ↦ hR) hreg.packs hdiv
    (show 8 + text.length < _ by omega) hin
  rw [← hon, ← htext] at hfill
  have happ := hfill.appended_eq (sendBuf.position_eq hin)
  obtain ⟨r, recv', buf', hmod, hcode, hframed, hrecv, hmods, hempty'⟩ := onRecv_frame hreg
    hempty (by rw [hstep.cipher]; exact hdiv) hmax (hstep.opens hR on body) extra
  have hlen : (appended sendBuf sendBuf').length = 8 + text.length := by
    rw [happ]
    simp
  refine ⟨sendBuf', recv', ?_, hfill.inside, hempty'⟩
  refine ⟨hsend, ?_, ⟨created, r, hreg.creates, ?_, hcode, hframed⟩, ⟨buf', ?_⟩, ?_⟩
  · exact hfill.keeps (sendBuf.position_eq hin)
  · rw [hlen, happ]
    exact hmod
  · rw [hlen, happ]
    exact hrecv
  · rw [hmods]
    exact hstep.advance _ _ _ _

/-- `count % CipherKeyChangeInterval` has a value for the next `n` messages
from a count on. -/
def Dividing (interval count : Int32) (n : ℕ) : Prop :=
  interval ≠ 0 ∧ (interval = -1 → ∀ k < n, count + Int32.ofNat k ≠ Int32.minValue)

theorem Dividing.divides {interval : Int32} {c : Cipher} {n : ℕ}
    (h : Dividing interval c.count (n + 1)) : c.Divides interval := by
  rintro (hzero | ⟨hone, hcount⟩)
  · exact h.1 hzero
  · refine h.2 hone 0 (Nat.succ_pos n) ?_
    rw [hcount]
    decide

theorem Dividing.next {interval count : Int32} {n : ℕ} (h : Dividing interval count (n + 1)) :
    Dividing interval (count + 1) n := by
  refine ⟨h.1, fun hone k hk ↦ ?_⟩
  have hcount : count + 1 + Int32.ofNat k = count + Int32.ofNat (k + 1) := by
    rw [Int32.ofNat_add, Int32.add_assoc, Int32.add_comm 1]
    rfl
  rw [hcount]
  exact h.2 hone (k + 1) (by omega)

theorem Dividing.fewer {interval count : Int32} {n : ℕ} (h : Dividing interval count (n + 1)) :
    Dividing interval count n :=
  ⟨h.1, fun hone k hk ↦ h.2 hone k (by omega)⟩

theorem Dividing.sent {R : Runtime} {S : Settings} {on : Flags} {m : Modifiers}
    {interval : Int32} {n : ℕ} (h : Dividing interval m.cipher.sender.count (n + 1))
    (body : List UInt8) : Dividing interval (m.sent R S on body).cipher.sender.count n := by
  simp only [Modifiers.sent]
  split_ifs
  · exact h.next
  · exact h.fewer

/-- Every run of acceptable messages, from any two objects that are in step. -/
theorem lockstep_run (hR : E.runtime.Lawful) {messages : List (P × List UInt8)}
    (hacc : ∀ msg ∈ messages, Acceptable E msg.1) {m : Modifiers} {sendBuf : BackedStream}
    {recv : Protocol S}
    (hdiv : ∀ msg ∈ messages, (E.settings.inForce (E.ops.flags msg.1)).enableCipher = true →
      Dividing E.settings.cipherKeyChangeInterval m.cipher.sender.count messages.length)
    (hin : sendBuf.position ≤ sendBuf.length) (hempty : recv.recvBuf.position = 0)
    (hstep : InStep m recv.mods) : Lockstep E messages m sendBuf recv := by
  induction messages generalizing m sendBuf recv with
  | nil => exact .nil m sendBuf recv
  | cons msg messages ih =>
      obtain ⟨packet, extra⟩ := msg
      obtain ⟨sendBuf', recv', hex, hin', hempty'⟩ :=
        (hacc _ List.mem_cons_self).exchanged hR extra
          (fun hon ↦ (hdiv _ List.mem_cons_self hon).divides) hin hempty hstep
      refine .cons hex (ih (fun msg hmsg ↦ hacc msg (List.mem_cons_of_mem _ hmsg)) ?_ hin' hempty'
        hex.inStep)
      intro msg hmsg hon
      exact (hdiv msg (List.mem_cons_of_mem _ hmsg) hon).sent _

/-! ## A message, and two that do not go through -/

/-- A text with the padding alone. -/
def padded (x : List UInt8) : List UInt8 :=
  x ++ List.replicate (blockSize - x.length % blockSize)
    (UInt8.ofNat (blockSize - x.length % blockSize))

theorem getLast?_padded (x : List UInt8) :
    (padded x).getLast? = some (UInt8.ofNat (blockSize - x.length % blockSize)) := by
  have hlt : x.length % blockSize < blockSize := Nat.mod_lt _ (by decide)
  have hne : blockSize - x.length % blockSize ≠ 0 := by omega
  simp [padded, List.getLast?_append, List.getLast?_replicate, hne]

theorem toNat_padding (x : List UInt8) :
    (UInt8.ofNat (blockSize - x.length % blockSize)).toNat = blockSize - x.length % blockSize := by
  rw [UInt8.toNat_ofNat']
  simp only [blockSize]
  omega

theorem unpad_padded (x : List UInt8) : unpad (padded x) = some x := by
  rw [unpad, getLast?_padded, Option.map_some, toNat_padding]
  simp [padded]

/-- The runtime with one answer of the real cipher. -/
def Runtime.answering (R : Runtime) (a : Answer) : Runtime :=
  { R with
    encrypt := fun k iv x ↦ a.exchange k iv [] (R.encrypt k iv x)
    decrypt := fun k iv text ↦ R.decrypt k iv (a.exchange k iv [] text) }

theorem Runtime.Lawful.answering {R : Runtime} (hR : R.Lawful) (a : Answer) :
    (R.answering a).Lawful where
  encrypt_length k iv x := by
    change (a.exchange k iv [] (R.encrypt k iv x)).length = _
    rw [a.length_exchange, hR.encrypt_length]
  decrypt_encrypt k iv x := by
    change R.decrypt k iv (a.exchange k iv [] (a.exchange k iv [] (R.encrypt k iv x))) = some x
    rw [a.exchange_exchange, hR.decrypt_encrypt]

/-- A runtime whose transforms pad and do nothing else. -/
def paddingRuntime (sha1 : List UInt8 → { l : List UInt8 // l.length = 20 }) : Runtime where
  grow capacity size := max (max size 256) (2 * capacity)
  sha1 := sha1
  encrypt _ _ x := padded x
  decrypt _ _ text := unpad text

theorem paddingRuntime_lawful {sha1 : List UInt8 → { l : List UInt8 // l.length = 20 }} :
    (paddingRuntime sha1).Lawful where
  encrypt_length _ _ x := by simp [paddingRuntime, padded]
  decrypt_encrypt _ _ x := unpad_padded x

/-- The plaintexts of two two-byte bodies behind sequence number and checksum. -/
def samplePlain : List UInt8 := [0x68, 0x69, 0x01, 0x6E, 0x3E, 0xBB, 0xC5]

def secondPlain : List UInt8 := [0x6F, 0x6B, 0x02, 0xE7, 0x0F, 0x97, 0x6F]

def sampleText : List UInt8 :=
  [0x87, 0xD5, 0xFA, 0x21, 0xA9, 0x0D, 0x0B, 0xE8, 0xC9, 0xD8, 0xB8, 0xBB, 0xAC, 0xBA, 0xCB, 0x4E]

def secondText : List UInt8 :=
  [0xA0, 0x1A, 0x85, 0xFA, 0x39, 0x19, 0x1E, 0x42, 0x84, 0xE8, 0x3A, 0xCA, 0x2D, 0xD4, 0xD8, 0xA4]

/-- The hash of the first work stream; its front is the key and the
initialization vector of the second message. -/
def sampleHash : List UInt8 :=
  [0xDB, 0x4D, 0xAD, 0x4D, 0x47, 0x03, 0x39, 0x0F, 0x21, 0x06,
    0x7E, 0x56, 0xA9, 0xF2, 0x61, 0x95, 0x97, 0xF7, 0xE2, 0x66]

def secondKey : Block := ⟨sampleHash.take blockSize, rfl⟩

def sampleAnswer : Answer where
  key := Cipher.initial.key
  nonce := Cipher.initial.iv
  plain := ⟨samplePlain, by decide⟩
  text := ⟨sampleText, rfl⟩

def secondAnswer : Answer where
  key := secondKey
  nonce := secondKey
  plain := ⟨secondPlain, by decide⟩
  text := ⟨secondText, rfl⟩

def sampleSha1 (x : List UInt8) : { l : List UInt8 // l.length = 20 } :=
  if x = [0x68, 0x69, 0x01] then
    ⟨[0x6E, 0x3E, 0xBB, 0xC5, 0x37, 0x63, 0x05, 0xFD, 0xBC, 0xD3,
      0xF9, 0xED, 0x9D, 0x9E, 0x81, 0x88, 0x91, 0x09, 0x87, 0x12], rfl⟩
  else if x = [0x6F, 0x6B, 0x02] then
    ⟨[0xE7, 0x0F, 0x97, 0x6F, 0x2E, 0x95, 0xB9, 0x6F, 0x1B, 0x1A,
      0xE3, 0xB8, 0x3D, 0xB9, 0x1A, 0x57, 0x1D, 0x17, 0xE6, 0x50], rfl⟩
  else if x = samplePlain ++ List.replicate 249 0 then ⟨sampleHash, rfl⟩
  else if x = secondPlain ++ sampleHash ++ List.replicate 229 0 then
    ⟨[0x49, 0x34, 0xCB, 0x07, 0xA5, 0xA6, 0x64, 0x04, 0xCE, 0xEB,
      0x29, 0x2D, 0xC1, 0x15, 0x22, 0x6F, 0x07, 0x5B, 0x82, 0xB3], rfl⟩
  else ⟨List.replicate 20 0, length_zeroHash⟩

/-- A runtime that answers two messages as the real one does, and every other
call with the padding alone. -/
def sampleRuntime : Runtime :=
  ((paddingRuntime sampleSha1).answering sampleAnswer).answering secondAnswer

theorem sampleRuntime_lawful : sampleRuntime.Lawful :=
  (paddingRuntime_lawful.answering sampleAnswer).answering secondAnswer

/-- A class whose packets have `n` bytes, read into one scratch array. -/
def recordOps (flags : Flags) (n : ℕ) : PacketOps (List UInt8) (List UInt8) where
  topic _ := 0x02010001
  flags _ := flags
  pack p := (p, true)
  unpack _ s bs := ⟨.accepted, (overwrite s 0 (bs.take n)).take n, n, overwrite s 0 (bs.take n)⟩
  unpack_congr _ s s' bs bs' hle htake := by
    have hle : n ≤ bs.length := hle
    have htake : bs'.take n = bs.take n := htake
    refine ⟨rfl, ?_, rfl⟩
    have hlen : (bs.take n).length = n := by simp [hle]
    simp only [overwrite, List.take_zero, List.nil_append, htake]
    rw [List.take_left' hlen, List.take_left' hlen]

def recordEnv (settings : Settings) (flags : Flags) (n : ℕ) :
    Env (List UInt8) (List UInt8) where
  ops := recordOps flags n
  runtime := sampleRuntime
  settings := settings
  factory topic := if topic = 0x02010001 then some [] else none

theorem registered_record (settings : Settings) (flags : Flags) {p : List UInt8} :
    Registered (recordEnv settings flags p.length) p p [] where
  packs := rfl
  creates := rfl
  flags := rfl
  unpacks := ⟨[], by simp [recordEnv, recordOps, overwrite]⟩

/-- The second message has its number and its key from the first. -/
theorem lockstep_run_sample :
    Lockstep (recordEnv {} ⟨true, true, true⟩ 2)
      [([0x68, 0x69], []), ([0x6F, 0x6B], [0xEE, 0xEE])] .initial .empty (.initial [0, 0]) := by
  refine lockstep_run sampleRuntime_lawful ?_ ?_ (Nat.le_refl 0) rfl .initial
  · rintro msg (_ | ⟨_, _ | ⟨_, hmsg⟩⟩)
    · exact ⟨⟨[], registered_record {} _ (p := [0x68, 0x69])⟩, by decide⟩
    · exact ⟨⟨[], registered_record {} _ (p := [0x6F, 0x6B])⟩, by decide⟩
    · exact absurd hmsg List.not_mem_nil
  · intro msg _ _
    exact ⟨by decide, fun h ↦ absurd h (by decide)⟩

theorem onRecvStep_large {st : LoopState P S} {pre text : List UInt8} {topic : UInt32} {n : ℕ}
    (hpos : st.currentPosition = pre.length) (hframed : Framed st.recvBuf pre n topic text)
    (hlt : n < 2 ^ 32) (hlarge : E.settings.maxPacketSize < n) {recvBufLength : ℕ}
    (hroom : st.currentPosition + 8 ≤ recvBufLength) :
    onRecvStep E recvBufLength st = .stop (.returned .failTooLargeMessage) st := by
  have hlength : getMessageLength st.recvBuf st.currentPosition = .ok n := by
    rw [hframed.getMessageLength_eq (by rw [hpos]), Nat.mod_eq_of_lt hlt]
  have hhead : (headerSize : ℤ) = 8 := rfl
  unfold onRecvStep
  rw [if_neg (by omega), hlength]
  dsimp only
  rw [if_pos hlarge]

/-- The receiver refuses a frame above its limit, which the sender has not
checked. -/
theorem not_lockstep_large {packet : P} {body : List UInt8}
    (hpack : E.ops.pack packet = (body, true))
    (hoff : E.settings.inForce (E.ops.flags packet) = {})
    (hlt : 8 + body.length < 2 ^ 32)
    (hlarge : E.settings.maxPacketSize < ((8 + body.length : ℕ) : ℤ)) {m : Modifiers}
    {sendBuf : BackedStream} (hin : sendBuf.position ≤ sendBuf.length) {recv : Protocol S}
    (hempty : recv.recvBuf.position = 0) (extra : List UInt8)
    (messages : List (P × List UInt8)) :
    ¬ Lockstep E ((packet, extra) :: messages) m sendBuf recv := by
  intro hrun
  cases hrun with
  | cons hex _ =>
      have hwire : wire E.runtime (E.settings.inForce (E.ops.flags packet)) m body = body := by
        rw [hoff]
        rfl
      obtain ⟨s', hsend, hfill⟩ := onSend_eq (m := m) (fun hon ↦ absurd hon (by simp [hoff]))
        hpack (fun hon ↦ absurd hon (by simp [hoff])) (by rw [hwire]; exact hlt) hin
      obtain rfl : s' = _ := by
        have h := hsend.symm.trans hex.sends
        exact (Prod.ext_iff.mp (Prod.ext_iff.mp (Except.ok.inj h)).2).2
      rw [hwire] at hfill
      have happ := hfill.appended_eq (sendBuf.position_eq hin)
      have hlen : (appended sendBuf s').length = 8 + body.length := by
        rw [happ]
        simp
      obtain ⟨buf', hrecv⟩ := hex.receives
      rw [hlen, happ] at hrecv
      obtain ⟨hframed, hposition, -⟩ := received_frame hempty E.runtime (8 + body.length)
        (E.ops.topic packet) body extra
      set st : LoopState P S := recv.enter E.runtime
        (header (8 + body.length) (E.ops.topic packet) ++ body ++ extra) (8 + body.length) with hst
      have hstart : st.currentPosition = ([] : List UInt8).length := rfl
      have hroom : st.currentPosition + 8 ≤ 8 + body.length := by
        change 0 + 8 ≤ _
        omega
      have hstep := onRecvStep_large hstart hframed hlt hlarge hroom
      have hnot : ¬ (header (8 + body.length) (E.ops.topic packet) ++ body ++ extra).length <
          8 + body.length := by
        simp only [List.length_append, length_header]
        omega
      unfold onRecv at hrecv
      rw [if_neg hnot] at hrecv
      dsimp only at hrecv
      rw [hposition, if_neg (by change ¬ _ < (8 : ℤ); omega), onRecvLoop, hstep] at hrecv
      simp at hrecv

/-- Without a value of `count % CipherKeyChangeInterval` nothing is encrypted. -/
theorem CipherModifier.modifySend_ne_ok {R : Runtime} {S : Settings} {m : CipherModifier}
    (hzero : S.cipherKeyChangeInterval = 0) {s : BackedStream} {start : ℤ}
    (x : CipherModifier × BackedStream) : m.modifySend R S s start ≠ .ok x := by
  intro hsend
  obtain ⟨_, -, hsend⟩ := Call.bind_eq_ok.mp hsend
  obtain ⟨_, -, hsend⟩ := Call.bind_eq_ok.mp hsend
  obtain ⟨_, -, hsend⟩ := Call.bind_eq_ok.mp hsend
  obtain ⟨_, -, hsend⟩ := Call.bind_eq_ok.mp hsend
  obtain ⟨_, -, hsend⟩ := Call.bind_eq_ok.mp hsend
  obtain ⟨_, hcomplete, -⟩ := Call.bind_eq_ok.mp hsend
  rw [Cipher.complete, if_pos (.inl hzero)] at hcomplete
  cases hcomplete

theorem not_lockstep_zero {packet : P} (hpack : (E.ops.pack packet).2 = true)
    (hcipher : (E.settings.inForce (E.ops.flags packet)).enableCipher = true)
    (hzero : E.settings.cipherKeyChangeInterval = 0) (extra : List UInt8)
    (messages : List (P × List UInt8)) (m : Modifiers) (sendBuf : BackedStream)
    (recv : Protocol S) : ¬ Lockstep E ((packet, extra) :: messages) m sendBuf recv := by
  intro hrun
  cases hrun with
  | cons hex _ =>
      have hsend := hex.sends
      unfold onSend at hsend
      dsimp only at hsend
      rw [if_neg (by simp [hpack])] at hsend
      obtain ⟨_, -, hsend⟩ := Call.bind_eq_ok.mp hsend
      obtain ⟨_, -, hsend⟩ := Call.bind_eq_ok.mp hsend
      obtain ⟨sent, hmod, -⟩ := Call.bind_eq_ok.mp hsend
      obtain ⟨_, -, hmod⟩ := Call.bind_eq_ok.mp hmod
      obtain ⟨_, -, hmod⟩ := Call.bind_eq_ok.mp hmod
      rw [Sending.stage, if_pos hcipher] at hmod
      obtain ⟨x, hx, -⟩ := Call.bind_eq_ok.mp hmod
      exact CipherModifier.modifySend_ne_ok hzero x hx

/-- A registered packet above the receiver's limit, and one that is encrypted
with an interval of zero. -/
theorem not_lockstep_record :
    (Registered (recordEnv {} {} 524288) (List.replicate 524288 0) (List.replicate 524288 0) [] ∧
      ¬ Lockstep (recordEnv {} {} 524288) [(List.replicate 524288 0, [])] .initial .empty
        (.initial [0])) ∧
    Registered (recordEnv { cipherKeyChangeInterval := 0 } ⟨false, false, true⟩ 1) [0] [0] [] ∧
      ¬ Lockstep (recordEnv { cipherKeyChangeInterval := 0 } ⟨false, false, true⟩ 1) [([0], [])]
        .initial .empty (.initial [0]) := by
  have hlarge : ∀ n : ℕ, 524280 < n → 8 + n < 2 ^ 32 →
      Registered (recordEnv {} {} n) (List.replicate n 0) (List.replicate n 0) [] ∧
        ¬ Lockstep (recordEnv {} {} n) [(List.replicate n 0, [])] .initial .empty
          (.initial [0]) := by
    intro n hn hlt
    constructor
    · have hreg := registered_record {} {} (p := List.replicate n 0)
      rwa [List.length_replicate] at hreg
    · refine not_lockstep_large rfl rfl ?_ ?_ (Nat.le_refl 0) rfl _ _
      · rwa [List.length_replicate]
      · rw [List.length_replicate]
        change (524288 : ℤ) < _
        omega
  refine ⟨hlarge 524288 (by decide) (by decide), registered_record _ _ (p := [0]), ?_⟩
  exact not_lockstep_zero rfl rfl rfl _ _ _ _ _

end WiseKernel.Client
