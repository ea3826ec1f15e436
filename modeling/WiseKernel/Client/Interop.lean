import WiseKernel.Client.Lockstep

/-!
# The client's modifiers and the server's

Runs of messages from a C# `OnSend` to the C++ `recv_modified`, and from the
C++ `send_modified` to the C# `ModifyRecv`.  The sequence numbers agree.  The
checksums are the first bytes of two different hashes, and the key schedules
chain different bytes, so a run goes through as long as neither shows.
-/

namespace WiseKernel.Client

open WiseKernel.Lib WiseKernel.Net

/-! ## The two states -/

/-- One direction of the two key schedules: key, IV or nonce, hash chain and
message count. -/
structure CipherCoincides (c : Cipher) (s : CipherImpl) : Prop where
  key : c.key = s.key
  iv : c.iv = s.nonce
  chain : c.hashStream.buffer.take c.hashStream.length = s.data
  short : c.hashStream.length ≤ 20
  count : c.count = Int32.ofNat s.count

theorem CipherCoincides.initial : CipherCoincides .initial .initial := by
  constructor <;> first | rfl | decide

/-- The two counters have different widths; the test of the interval is the
same as long as this does not show. -/
theorem count_mod_eq_zero {interval : Int32} {n count : ℕ} (hint : interval.toInt = n)
    (hcount : n ∣ 2 ^ 32 ∨ count < 2 ^ 31) :
    Int32.ofNat count % interval = 0 ↔ count % n = 0 := by
  have hdvd : (n : ℤ) ∣ (count : ℤ).bmod Int32.size ↔ n ∣ count := by
    rcases hcount with hdiv | hlt
    · have hcast : (n : ℤ) ∣ (Int32.size : ℤ) := Int.natCast_dvd_natCast.mpr hdiv
      rw [Int.dvd_iff_emod_eq_zero, ← Int.emod_emod_of_dvd ((count : ℤ).bmod _) hcast,
        Int.bmod_emod, Int.emod_emod_of_dvd _ hcast, ← Int.dvd_iff_emod_eq_zero,
        Int.natCast_dvd_natCast]
    · have hsmall : (count : ℤ).bmod Int32.size = count := by
        apply Int.bmod_eq_of_le
        · simp only [Int32.size]
          omega
        · simp only [Int32.size]
          omega
      rw [hsmall, Int.natCast_dvd_natCast]
  rw [← Int32.toInt_inj, Int32.toInt_mod, Int32.toInt_ofNat', hint]
  change _ = (0 : ℤ) ↔ _
  rw [← Int.dvd_iff_tmod_eq_zero, hdvd, Nat.dvd_iff_mod_eq_zero]

/-- The client's chain for a message has the hash of the bytes that the server
chains. -/
def Chains (R : Runtime) (c : Cipher) (plain : List UInt8) : Prop :=
  R.sha1 (c.chained R plain).buffer =
    R.sha1 (plain.take 64 ++ c.hashStream.buffer.take c.hashStream.length)

theorem CipherCoincides.advance {R : Runtime} {B : Botan} (hsha1 : ∀ x, R.sha1 x = B.sha1 x)
    {interval : Int32} {n : ℕ} (hint : interval.toInt = n) {c : Cipher} {s : CipherImpl}
    (h : CipherCoincides c s) (hcount : n ∣ 2 ^ 32 ∨ s.count < 2 ^ 31) {plain : List UInt8}
    (hchains : Chains R c plain) :
    CipherCoincides (c.advance R interval plain) (s.advance B n plain) := by
  have hhash : R.sha1 (c.chained R plain).buffer = B.sha1 (plain.take 64 ++ s.data) := by
    rw [hchains, hsha1, h.chain]
  obtain ⟨rest, hfront⟩ := BackedStream.write_front (s := c.hashStream) R.grow
    (R.sha1 (c.chained R plain).buffer).1
  have hlen : ((c.hashStream.seek 0).write R.grow (R.sha1 (c.chained R plain).buffer).1).length =
      20 := by
    change max c.hashStream.length (0 + (R.sha1 (c.chained R plain).buffer).1.length) = 20
    have hshort := h.short
    rw [(R.sha1 (c.chained R plain).buffer).2]
    omega
  constructor
  · simp only [Cipher.advance, CipherImpl.advance, hhash, h.key]
    congr 1
    rw [h.count, count_mod_eq_zero hint hcount]
  · simp only [Cipher.advance, CipherImpl.advance, hhash]
  · change (BackedStream.buffer _).take (BackedStream.length _) =
      (B.sha1 (plain.take 64 ++ s.data)).1
    rw [← hhash]
    simp only [Cipher.advance]
    rw [hlen, hfront]
    exact List.take_left' (R.sha1 (c.chained R plain).buffer).2
  · exact hlen.le
  · change c.count + 1 = Int32.ofNat ((s.count + 1) % 2 ^ 64)
    rw [h.count]
    apply Int32.toBitVec_inj.mp
    apply BitVec.eq_of_toNat_eq
    simp

/-! ## From the client to the server -/

/-- What the two sides have in common: the cryptographic functions, the
switches and the key change interval. -/
structure Paired (R : Runtime) (S : Settings) (B : Botan) (cfg : Config) : Prop where
  runtime : R.Lawful
  botan : B.Lawful
  sha1 : ∀ x, R.sha1 x = B.sha1 x
  encrypt : ∀ (c : CipherImpl) x, Net.Cipher.encrypt B c x = some (R.encrypt c.key c.nonce x)
  interval : S.cipherKeyChangeInterval.toInt = cfg.keyChangeInterval
  positive : 1 ≤ cfg.keyChangeInterval
  sequence : S.enableSequence = cfg.enableSequence
  checksum : S.enableChecksum = cfg.enableChecksum
  cipher : S.enableCipher = cfg.enableCipher

/-- The frame has a length that its field can hold, and on this message the two
checksums and the two chains agree. -/
structure Agrees (R : Runtime) (B : Botan) (on : Flags) (c : Cipher) (seq : UInt8)
    (body : List UInt8) : Prop where
  length : 8 + Flags.sealedLength on body.length < 2 ^ 32
  checksum : on.enableChecksum = true → numbered on seq body ≠ [] → ∀ hash, B.crc32 = some hash →
    (hash (numbered on seq body)).1 =
      (ChecksumModifier.computeHash R (numbered on seq body)).take 4
  chain : on.enableCipher = true → Chains R c (checked R on seq body)

/-- The client's sending half stands where the server's receiving half stands. -/
structure SendsTo (m : Modifiers) (r : Net.Modifiers) : Prop where
  cipher : CipherCoincides m.cipher.sender r.cipher.receiver
  sequence : m.sequence.sendSeq = r.sequencer.recvSeq

section

variable {R : Runtime} {S : Settings} {B : Botan} {cfg : Config}

theorem Paired.inForce (h : Paired R S B cfg) (flags : Flags) :
    S.inForce flags = cfg.inForce flags := by
  simp only [Settings.inForce, Config.inForce, h.sequence, h.checksum, h.cipher]

theorem Paired.divides (h : Paired R S B cfg) (c : Cipher) :
    c.Divides S.cipherKeyChangeInterval := by
  have hint := h.interval
  have hpos := h.positive
  rintro (hzero | ⟨hone, -⟩)
  · rw [hzero] at hint
    change (0 : ℤ) = _ at hint
    omega
  · rw [hone] at hint
    change (-1 : ℤ) = _ at hint
    omega

/-- Where the hashes agree, the two checksums are one function. -/
theorem Agrees.wrapChecksum_eq (hB : B.Lawful) {on : Flags} {c : Cipher} {seq : UInt8}
    {body : List UInt8} (h : Agrees R B on c seq body) :
    wrapChecksum B on.enableChecksum (numbered on seq body) = some (checked R on seq body) := by
  obtain ⟨hash, hhash⟩ := Option.isSome_iff_exists.mp hB.crc32_available
  cases hon : on.enableChecksum with
  | false => simp [wrapChecksum, checked, hon]
  | true =>
      by_cases hnil : numbered on seq body = []
      · simp [wrapChecksum, checked, hon, hhash, hnil, Checksum.wrap, ChecksumModifier.wrap]
      · have heq := h.checksum hon hnil hash hhash
        simp [wrapChecksum, checked, hon, hhash, hnil, Checksum.wrap, ChecksumModifier.wrap, heq]

theorem unwrapSequence_numbered (on : Flags) (r : Net.Modifiers) (body : List UInt8) :
    ∃ r', unwrapSequence on.enableSequence r (numbered on r.sequencer.recvSeq body) =
        some (r', body) ∧ r'.cipher = r.cipher ∧
      r'.sequencer.recvSeq =
        if on.enableSequence then r.sequencer.recvSeq + 1 else r.sequencer.recvSeq := by
  cases hon : on.enableSequence with
  | false => exact ⟨r, by simp [unwrapSequence, numbered, hon], rfl, rfl⟩
  | true =>
      refine ⟨{ r with sequencer.recvSeq := r.sequencer.recvSeq + 1 }, ?_, rfl, rfl⟩
      simp [unwrapSequence, numbered, hon]

/-- The server opens what the client has put on the wire, and the two stand
together again. -/
theorem unwrapBody_wire (h : Paired R S B cfg) {m : Modifiers} {r : Net.Modifiers}
    (hsends : SendsTo m r) {flags : Flags} {body : List UInt8}
    (hagree : Agrees R B (S.inForce flags) m.cipher.sender m.sequence.sendSeq body)
    (hcount : cfg.keyChangeInterval ∣ 2 ^ 32 ∨ r.cipher.receiver.count < 2 ^ 31) :
    ∃ r', unwrapBody B cfg flags r (wire R (S.inForce flags) m body) = some (r', body) ∧
      SendsTo (m.sent R S (S.inForce flags) body) r' ∧
      r'.cipher.receiver.count ≤ r.cipher.receiver.count + 1 := by
  set on := S.inForce flags with hon
  set plain := checked R on m.sequence.sendSeq body with hplain
  have hpos := h.positive
  -- the cipher
  obtain ⟨r₁, hcipher, hcoincides, hle, hseq₁⟩ : ∃ r₁,
      unwrapCipher B cfg.keyChangeInterval on.enableCipher r (wire R on m body) =
        some (r₁, plain) ∧
      CipherCoincides (m.sent R S on body).cipher.sender r₁.cipher.receiver ∧
      r₁.cipher.receiver.count ≤ r.cipher.receiver.count + 1 ∧ r₁.sequencer = r.sequencer := by
    cases hcipher : on.enableCipher with
    | false =>
        refine ⟨r, by simp [unwrapCipher, wire, hcipher, hplain], ?_, by omega, rfl⟩
        simp only [Modifiers.sent, hcipher]
        exact hsends.cipher
    | true =>
        set text := R.encrypt m.cipher.sender.key m.cipher.sender.iv plain with htext
        have hwire : wire R on m body = text := by simp [wire, hcipher, htext, hplain]
        have hlen : text.length = plain.length + (blockSize - plain.length % blockSize) :=
          h.runtime.encrypt_length _ _ _
        have hne : text ≠ [] := by
          intro hnil
          rw [hnil, List.length_nil] at hlen
          simp only [blockSize] at hlen
          omega
        have hblock : text.length % blockSize = 0 := by
          rw [hlen]
          simp only [blockSize]
          omega
        have hdec : Net.Cipher.decrypt B r.cipher.receiver text = some plain := by
          apply Net.Cipher.decrypt_encrypt h.botan (s := r.cipher.receiver) rfl rfl
          rw [h.encrypt, htext, hsends.cipher.key, hsends.cipher.iv]
        refine ⟨{ r with cipher.receiver :=
          r.cipher.receiver.advance B cfg.keyChangeInterval plain }, ?_, ?_, ?_, rfl⟩
        · rw [hwire, unwrapCipher, if_pos ⟨rfl, hne⟩, if_pos ⟨hblock, by omega⟩, hdec]
          rfl
        · simp only [Modifiers.sent, hcipher, if_true, ← hplain]
          exact hsends.cipher.advance h.sha1 h.interval hcount (hagree.chain hcipher)
        · change (r.cipher.receiver.count + 1) % 2 ^ 64 ≤ _
          exact Nat.mod_le _ _
  have hchecksum := unwrapChecksum_wrapChecksum (hagree.wrapChecksum_eq h.botan)
  obtain ⟨r₂, hsequence, hkept, hnext⟩ := unwrapSequence_numbered on r₁ body
  rw [hseq₁, ← hsends.sequence] at hsequence hnext
  refine ⟨r₂, ?_, ⟨?_, ?_⟩, ?_⟩
  · simp only [unwrapBody, ← h.inForce, ← hon, hcipher, Option.bind_eq_bind, Option.bind_some]
    rw [hchecksum]
    exact hsequence
  · rw [hkept]
    exact hcoincides
  · rw [hnext]
    simp only [Modifiers.sent]
    split_ifs <;> rfl
  · rw [hkept]
    exact hle

/-! ## From the server to the client -/

/-- The client's receiving half stands where the server's sending half stands. -/
structure ReceivesFrom (r : Modifiers) (s : Net.Modifiers) : Prop where
  cipher : CipherCoincides r.cipher.recevier s.cipher.sender
  sequence : r.sequence.recvSeq = s.sequencer.sendSeq

/-- The server does not encrypt an empty body, and the client decrypts it. -/
structure AgreesBack (R : Runtime) (B : Botan) (on : Flags) (r : Modifiers) (body : List UInt8) :
    Prop where
  agrees : Agrees R B on r.cipher.recevier r.sequence.recvSeq body
  nonempty : on.enableCipher = true → checked R on r.sequence.recvSeq body ≠ []

/-- The client opens what the server has put on the wire, and the two stand
together again. -/
theorem opens_wrapBody (h : Paired R S B cfg) {r : Modifiers} {s : Net.Modifiers}
    (hfrom : ReceivesFrom r s) {flags : Flags} {body : List UInt8}
    (hagree : AgreesBack R B (S.inForce flags) r body)
    (hcount : cfg.keyChangeInterval ∣ 2 ^ 32 ∨ s.cipher.sender.count < 2 ^ 31) :
    ∃ s' text, wrapBody B cfg flags s body = some (s', text) ∧
      Opens R (S.inForce flags) r text body ∧
      text.length = Flags.sealedLength (S.inForce flags) body.length ∧
      ReceivesFrom (r.received R S (S.inForce flags) body) s' ∧
      s'.cipher.sender.count ≤ s.cipher.sender.count + 1 := by
  set on := S.inForce flags with hon
  set plain := checked R on r.sequence.recvSeq body with hplain
  have hchecksum : wrapChecksum B on.enableChecksum (wrapSequence on.enableSequence s body).2 =
      some plain := by
    have hnumbered : (wrapSequence on.enableSequence s body).2 =
        numbered on r.sequence.recvSeq body := by
      rw [hfrom.sequence]
      cases hseq : on.enableSequence <;> simp [wrapSequence, numbered, hseq]
    rw [hnumbered]
    exact hagree.agrees.wrapChecksum_eq h.botan
  have hsequence : (r.received R S on body).sequence.recvSeq =
      (wrapSequence on.enableSequence s body).1.sequencer.sendSeq := by
    simp only [Modifiers.received]
    cases hseq : on.enableSequence <;> simp [wrapSequence, hfrom.sequence]
  have hsender : (wrapSequence on.enableSequence s body).1.cipher = s.cipher := by
    cases hseq : on.enableSequence <;> rfl
  set s₁ := (wrapSequence on.enableSequence s body).1 with hs₁
  have hbind : ∀ x, wrapCipher B cfg.keyChangeInterval on.enableCipher s₁ plain = some x →
      wrapBody B cfg flags s body = some x := by
    intro x hx
    simp only [wrapBody, ← h.inForce, ← hon, hchecksum, Option.bind_eq_bind, Option.bind_some]
    exact hx
  cases hcipher : on.enableCipher with
  | false =>
      refine ⟨s₁, plain, hbind _ (by simp [wrapCipher, hcipher]), ?_, ?_, ⟨?_, hsequence⟩, ?_⟩
      · simp [Opens, hcipher, hplain]
      · rw [hplain, length_checked, Flags.sealedLength]
        simp [hcipher]
      · simp only [Modifiers.received, hcipher]
        rw [hsender]
        exact hfrom.cipher
      · rw [hsender]
        omega
  | true =>
      set text := R.encrypt r.cipher.recevier.key r.cipher.recevier.iv plain with htext
      have hlen : text.length = plain.length + (blockSize - plain.length % blockSize) :=
        h.runtime.encrypt_length _ _ _
      have hencrypt : Net.Cipher.encrypt B s₁.cipher.sender plain = some text := by
        rw [h.encrypt, hsender, ← hfrom.cipher.key, ← hfrom.cipher.iv]
      refine ⟨{ s₁ with cipher.sender :=
        s₁.cipher.sender.advance B cfg.keyChangeInterval plain }, text, hbind _ ?_, ?_, ?_,
        ⟨?_, hsequence⟩, ?_⟩
      · rw [wrapCipher, if_pos ⟨hcipher, hagree.nonempty hcipher⟩, hencrypt]
        rfl
      · simp only [Opens, hcipher, if_true, ← hplain]
        exact ⟨h.runtime.decrypt_encrypt _ _ _, by omega⟩
      · rw [hlen, hplain, length_checked, Flags.sealedLength]
        simp [hcipher]
      · simp only [Modifiers.received, hcipher, if_true, ← hplain]
        rw [hsender]
        exact hfrom.cipher.advance h.sha1 h.interval hcount (hagree.agrees.chain hcipher)
      · rw [hsender]
        exact Nat.mod_le _ _

end

/-! ## Runs -/

section

variable {P T : Type}

/-- A message that the client sends and the server accepts, wherever the frame
stands in its buffer. -/
structure AcceptedByServer (E : Env P T) (B : Botan) (cfg : Config) (packet : P)
    (m m' : Modifiers) (sendBuf sendBuf' : BackedStream) (r r' : Net.Modifiers) : Prop where
  sends : onSend E m packet sendBuf = .ok (.success, m', sendBuf')
  accepts : ∀ pre post, ∃ bytes,
    (recvModified B cfg (E.ops.flags packet) r (pre ++ appended sendBuf sendBuf' ++ post)
      pre.length (appended sendBuf sendBuf').length).out =
        .ok ⟨.ok, r', bytes, 8 + (E.ops.pack packet).1.length⟩ ∧
    window bytes (pre.length + 8) (E.ops.pack packet).1.length = (E.ops.pack packet).1
  together : SendsTo m' r'

/-- A run of packets from the client to the server. -/
inductive ToServer (E : Env P T) (B : Botan) (cfg : Config) :
    List P → Modifiers → BackedStream → Net.Modifiers → Prop
  | nil (m : Modifiers) (sendBuf : BackedStream) (r : Net.Modifiers) :
      ToServer E B cfg [] m sendBuf r
  | cons {packet : P} {packets : List P} {m m' : Modifiers} {sendBuf sendBuf' : BackedStream}
      {r r' : Net.Modifiers}
      (first : AcceptedByServer E B cfg packet m m' sendBuf sendBuf' r r')
      (rest : ToServer E B cfg packets m' sendBuf' r') :
      ToServer E B cfg (packet :: packets) m sendBuf r

/-- The packets pack, and on each of them the two sides agree. -/
def AgreesAlong (E : Env P T) (B : Botan) : Modifiers → List P → Prop
  | _, [] => True
  | m, packet :: packets =>
      let on := E.settings.inForce (E.ops.flags packet)
      let body := (E.ops.pack packet).1
      (E.ops.pack packet).2 = true ∧
        Agrees E.runtime B on m.cipher.sender m.sequence.sendSeq body ∧
        AgreesAlong E B (m.sent E.runtime E.settings on body) packets

/-- A packed message of the server. -/
structure ServerMessage where
  flags : Flags
  topic : UInt32
  body : List UInt8

def ServerMessage.packed (msg : ServerMessage) : List UInt8 :=
  header (8 + msg.body.length) msg.topic ++ msg.body

/-- A message that the server sends and the client accepts, wherever the frame
stands in its buffer. -/
structure AcceptedByClient (R : Runtime) (S : Settings) (B : Botan) (cfg : Config)
    (msg : ServerMessage) (s s' : Net.Modifiers) (r r' : Modifiers) : Prop where
  accepts : ∃ frame, (sendModified B cfg msg.flags s msg.packed).out =
      .ok (.ok, s', some (.tcp frame)) ∧
    ∀ (recvBuf : BackedStream) (pre rest : List UInt8), recvBuf.buffer = pre ++ frame ++ rest →
      ∃ recvBuf', modifyRecv R S msg.flags r recvBuf pre.length =
          .ok ⟨.success, r', recvBuf'⟩ ∧
        Framed recvBuf' pre (8 + msg.body.length) msg.topic msg.body
  together : ReceivesFrom r' s'

/-- A run of messages from the server to the client. -/
inductive ToClient (R : Runtime) (S : Settings) (B : Botan) (cfg : Config) :
    List ServerMessage → Net.Modifiers → Modifiers → Prop
  | nil (s : Net.Modifiers) (r : Modifiers) : ToClient R S B cfg [] s r
  | cons {msg : ServerMessage} {messages : List ServerMessage} {s s' : Net.Modifiers}
      {r r' : Modifiers} (first : AcceptedByClient R S B cfg msg s s' r r')
      (rest : ToClient R S B cfg messages s' r') :
      ToClient R S B cfg (msg :: messages) s r

/-- On each message the two sides agree. -/
def AgreesBackAlong (R : Runtime) (S : Settings) (B : Botan) :
    Modifiers → List ServerMessage → Prop
  | _, [] => True
  | r, msg :: messages =>
      AgreesBack R B (S.inForce msg.flags) r msg.body ∧
        AgreesBackAlong R S B (r.received R S (S.inForce msg.flags) msg.body) messages

variable {E : Env P T} {B : Botan} {cfg : Config}

theorem acceptedByServer (h : Paired E.runtime E.settings B cfg) {packet : P}
    (hpack : (E.ops.pack packet).2 = true) {m : Modifiers} {sendBuf : BackedStream}
    (hin : sendBuf.position ≤ sendBuf.length) {r : Net.Modifiers} (hsends : SendsTo m r)
    (hagree : Agrees E.runtime B (E.settings.inForce (E.ops.flags packet)) m.cipher.sender
      m.sequence.sendSeq (E.ops.pack packet).1)
    (hcount : cfg.keyChangeInterval ∣ 2 ^ 32 ∨ r.cipher.receiver.count < 2 ^ 31) :
    ∃ sendBuf' r', AcceptedByServer E B cfg packet m
        (m.sent E.runtime E.settings (E.settings.inForce (E.ops.flags packet))
          (E.ops.pack packet).1) sendBuf sendBuf' r r' ∧
      sendBuf'.position ≤ sendBuf'.length ∧
      r'.cipher.receiver.count ≤ r.cipher.receiver.count + 1 := by
  set body := (E.ops.pack packet).1 with hbody
  set on := E.settings.inForce (E.ops.flags packet) with hon
  have hlength : 8 + (wire E.runtime on m body).length < 2 ^ 32 := by
    rw [length_wire h.runtime]
    exact hagree.length
  obtain ⟨sendBuf', hsend, hfill⟩ := onSend_eq (m := m) (fun _ ↦ h.runtime)
    (show E.ops.pack packet = (body, true) from Prod.ext rfl hpack) (fun _ ↦ h.divides _)
    hlength hin
  rw [← hon] at hfill
  have happ := hfill.appended_eq (sendBuf.position_eq hin)
  obtain ⟨r', hunwrap, htogether, hle⟩ := unwrapBody_wire h hsends hagree hcount
  refine ⟨sendBuf', r', ⟨hsend, fun pre post ↦ ?_, htogether⟩, hfill.inside, hle⟩
  set head := header (8 + (wire E.runtime on m body).length) (E.ops.topic packet) with hhead
  obtain ⟨junk, -, hrecv⟩ := recvModified_of_unwrapBody h.botan hunwrap pre
    (show head.length = 8 from rfl) post
  refine ⟨pre ++ head ++ (body ++ junk) ++ post, ?_, ?_⟩
  · rw [happ, List.length_append, show head.length = 8 from rfl, ← List.append_assoc pre]
    exact hrecv
  · have hcut :
        pre ++ head ++ (body ++ junk) ++ post = (pre ++ head) ++ body ++ (junk ++ post) := by
      simp
    rw [hcut]
    exact window_append _ _ _ (by rw [List.length_append]; rfl) rfl

theorem acceptedByClient {R : Runtime} {S : Settings} (h : Paired R S B cfg)
    (hsocket : cfg.enableLoopback = false) {msg : ServerMessage} {s : Net.Modifiers}
    {r : Modifiers} (hfrom : ReceivesFrom r s)
    (hagree : AgreesBack R B (S.inForce msg.flags) r msg.body)
    (hcount : cfg.keyChangeInterval ∣ 2 ^ 32 ∨ s.cipher.sender.count < 2 ^ 31) :
    ∃ s', AcceptedByClient R S B cfg msg s s' r
        (r.received R S (S.inForce msg.flags) msg.body) ∧
      s'.cipher.sender.count ≤ s.cipher.sender.count + 1 := by
  obtain ⟨s', text, hwrap, hopen, hlen, htogether, hle⟩ := opens_wrapBody h hfrom hagree hcount
  have hlt := hagree.agrees.length
  obtain ⟨header', hkept, hsend⟩ := sendModified_of_wrapBody h.botan
    (fun _ _ ↦ by have := h.positive; omega) (length_header (8 + msg.body.length) msg.topic) hwrap
  have hwireHeader : wireHeader (header (8 + msg.body.length) msg.topic) msg.body text =
      header (8 + text.length) msg.topic := by
    have hbody := hkept.body_le
    unfold wireHeader
    split_ifs with hgrow
    · rw [Nat.mod_eq_of_lt (by omega)]
      rfl
    · rw [show text.length = msg.body.length by omega]
  rw [hsocket, hwireHeader] at hsend
  refine ⟨s', ⟨⟨header (8 + text.length) msg.topic ++ text, hsend, ?_⟩, htogether⟩, hle⟩
  intro recvBuf pre rest hbuffer
  have hframed : Framed recvBuf pre (8 + text.length) msg.topic text :=
    ⟨rest, by rw [hbuffer]; simp⟩
  obtain ⟨recvBuf', hmod, hframed', -, -⟩ := modifyRecv_eq (fun _ ↦ h.divides _) hframed rfl
    (by omega) hopen
  exact ⟨recvBuf', hmod, hframed'⟩

/-- Whole sessions in both directions, as long as the two sides agree on every
message. -/
theorem interop (h : Paired E.runtime E.settings B cfg) (hsocket : cfg.enableLoopback = false) :
    (∀ (packets : List P) (m : Modifiers) (sendBuf : BackedStream) (r : Net.Modifiers),
      SendsTo m r → sendBuf.position ≤ sendBuf.length → AgreesAlong E B m packets →
      (cfg.keyChangeInterval ∣ 2 ^ 32 ∨ r.cipher.receiver.count + packets.length ≤ 2 ^ 31) →
        ToServer E B cfg packets m sendBuf r) ∧
    ∀ (messages : List ServerMessage) (s : Net.Modifiers) (r : Modifiers),
      ReceivesFrom r s → AgreesBackAlong E.runtime E.settings B r messages →
      (cfg.keyChangeInterval ∣ 2 ^ 32 ∨ s.cipher.sender.count + messages.length ≤ 2 ^ 31) →
        ToClient E.runtime E.settings B cfg messages s r := by
  constructor
  · intro packets
    induction packets with
    | nil =>
        intro m sendBuf r _ _ _ _
        exact .nil m sendBuf r
    | cons packet packets ih =>
        intro m sendBuf r hsends hin ⟨hpack, hagree, hrest⟩ hcount
        simp only [List.length_cons] at hcount
        obtain ⟨sendBuf', r', hfirst, hin', hle⟩ := acceptedByServer h hpack hin hsends hagree
          (hcount.imp_right fun hlt ↦ by omega)
        exact .cons hfirst (ih _ sendBuf' r' hfirst.together hin' hrest
          (hcount.imp_right fun hlt ↦ by omega))
  · intro messages
    induction messages with
    | nil =>
        intro s r _ _ _
        exact .nil s r
    | cons msg messages ih =>
        intro s r hfrom ⟨hagree, hrest⟩ hcount
        simp only [List.length_cons] at hcount
        obtain ⟨s', hfirst, hle⟩ := acceptedByClient h hsocket hfrom hagree
          (hcount.imp_right fun hlt ↦ by omega)
        exact .cons hfirst (ih s' _ hfirst.together hrest (hcount.imp_right fun hlt ↦ by omega))

end

/-! ## Two sides with one library -/

/-- A runtime with the cryptographic functions of a library. -/
def Runtime.ofBotan (B : Botan) : Runtime where
  grow capacity size := max (max size 256) (2 * capacity)
  sha1 := B.sha1
  encrypt k iv x := (Net.Cipher.encrypt B ⟨k, iv, [], 0⟩ x).getD []
  decrypt k iv x := Net.Cipher.decrypt B ⟨k, iv, [], 0⟩ x

theorem Runtime.ofBotan_encrypt {B : Botan} (hB : B.Lawful) (c : CipherImpl) (x : List UInt8) :
    Net.Cipher.encrypt B c x = some ((Runtime.ofBotan B).encrypt c.key c.nonce x) := by
  obtain ⟨text, htext, -⟩ := Net.Cipher.encrypt_isSome hB c x
  have hsame : Net.Cipher.encrypt B ⟨c.key, c.nonce, [], 0⟩ x = some text := htext
  simp [Runtime.ofBotan, htext, hsame]

theorem Runtime.ofBotan_lawful {B : Botan} (hB : B.Lawful) : (Runtime.ofBotan B).Lawful where
  encrypt_length k iv x := by
    obtain ⟨text, htext, hlen⟩ := Net.Cipher.encrypt_isSome hB ⟨k, iv, [], 0⟩ x
    simp [Runtime.ofBotan, htext, hlen]
  decrypt_encrypt k iv x :=
    Net.Cipher.decrypt_encrypt hB rfl rfl (Runtime.ofBotan_encrypt hB ⟨k, iv, [], 0⟩ x)

theorem paired_ofBotan {B : Botan} (hB : B.Lawful) : Paired (Runtime.ofBotan B) {} B {} where
  runtime := Runtime.ofBotan_lawful hB
  botan := hB
  sha1 _ := rfl
  encrypt := Runtime.ofBotan_encrypt hB
  interval := by decide
  positive := by decide
  sequence := rfl
  checksum := rfl
  cipher := rfl

def pairedEnv (B : Botan) (flags : Flags) (n : ℕ) : Env (List UInt8) (List UInt8) where
  ops := recordOps flags n
  runtime := Runtime.ofBotan B
  settings := {}
  factory topic := if topic = 0x02010001 then some [] else none

/-- Two numbered messages in each direction, the second one of the server with
an empty body. -/
theorem interop_numbered :
    ToServer (pairedEnv sampleBotan ⟨true, false, false⟩ 2) sampleBotan {}
        [[0x68, 0x69], [0x68, 0x6A]] .initial .empty .initial ∧
      ToClient (Runtime.ofBotan sampleBotan) {} sampleBotan {}
        [⟨⟨true, false, false⟩, 0x02010001, [5]⟩, ⟨⟨true, false, false⟩, 0x02010001, []⟩]
        .initial .initial := by
  obtain ⟨hserver, hclient⟩ := interop (E := pairedEnv sampleBotan ⟨true, false, false⟩ 2)
    (paired_ofBotan sampleBotan_lawful) rfl
  have hagrees : ∀ c seq (body : List UInt8), body.length ≤ 2 →
      Agrees (Runtime.ofBotan sampleBotan) sampleBotan ⟨true, false, false⟩ c seq body := by
    intro c seq body hlen
    refine ⟨?_, fun h ↦ (Bool.false_ne_true h).elim, fun h ↦ (Bool.false_ne_true h).elim⟩
    simp only [Flags.sealedLength, Flags.checkedLength]
    simp
    omega
  constructor
  · refine hserver _ _ _ _ ⟨.initial, rfl⟩ (Nat.le_refl 0) ?_ (.inl (by decide))
    exact ⟨rfl, hagrees _ _ _ (by decide), rfl, hagrees _ _ _ (by decide), trivial⟩
  · refine hclient _ _ _ ⟨.initial, rfl⟩ ?_ (.inl (by decide))
    exact ⟨⟨hagrees _ _ _ (by decide), fun h ↦ (Bool.false_ne_true h).elim⟩,
      ⟨hagrees _ _ _ (by decide), fun h ↦ (Bool.false_ne_true h).elim⟩, trivial⟩

/-! ## A checksum that the server does not accept -/

/-- A library that answers for the body `00` as the real one does. -/
def zeroBotan : Botan :=
  { sampleBotan with
    crc32 := some fun x ↦
      if x = [0x00] then ⟨[0xD2, 0x02, 0xEF, 0x8D], rfl⟩ else ⟨[0, 0, 0, 0], length_zeroCrc⟩
    sha1 := fun x ↦
      if x = [0x00] then
        ⟨[0x5B, 0xA9, 0x3C, 0x9D, 0xB0, 0xCF, 0xF9, 0x3F, 0x52, 0xB5,
          0x21, 0xD7, 0x42, 0x0E, 0x43, 0xF6, 0xED, 0xA2, 0x78, 0x4F], rfl⟩
      else ⟨List.replicate 20 0, length_zeroHash⟩ }

theorem zeroBotan_lawful : zeroBotan.Lawful :=
  { sampleBotan_lawful with crc32_available := rfl }

theorem recvModified_zero :
    (recvModified zeroBotan {} ⟨false, true, false⟩ .initial
      (header 13 0x02010001 ++ [0x00, 0x5B, 0xA9, 0x3C, 0x9D]) 0 13).out =
        .ok ⟨.fail .failIncorrectChecksum, .initial,
          header 13 0x02010001 ++ [0x00, 0x5B, 0xA9, 0x3C, 0x9D], 13⟩ := by
  rfl

/-- The client's checksum is the front of a SHA-1 hash, the server's a CRC. -/
theorem not_toServer_zero :
    Paired (pairedEnv zeroBotan ⟨false, true, false⟩ 1).runtime {} zeroBotan {} ∧
      ¬ ToServer (pairedEnv zeroBotan ⟨false, true, false⟩ 1) zeroBotan {} [[0x00]] .initial .empty
        .initial := by
  have hpaired := paired_ofBotan zeroBotan_lawful
  refine ⟨hpaired, fun hrun ↦ ?_⟩
  cases hrun with
  | cons hfirst _ =>
      have hpack : (pairedEnv zeroBotan ⟨false, true, false⟩ 1).ops.pack [0x00] =
          ([0x00], true) := rfl
      obtain ⟨s', hsend, hfill⟩ := onSend_eq (m := .initial) (fun _ ↦ hpaired.runtime) hpack
        (fun _ ↦ hpaired.divides _) (by decide) BackedStream.empty_inside
      obtain rfl : s' = _ :=
        (Prod.ext_iff.mp (Prod.ext_iff.mp (Except.ok.inj (hsend.symm.trans hfirst.sends))).2).2
      have happ : appended .empty s' =
          header 13 0x02010001 ++ [0x00, 0x5B, 0xA9, 0x3C, 0x9D] := hfill.appended_eq rfl
      obtain ⟨bytes, hrecv, -⟩ := hfirst.accepts [] []
      rw [happ, List.nil_append, List.append_nil] at hrecv
      have hcode := congrArg Received.rc (Except.ok.inj (recvModified_zero.symm.trans hrecv))
      cases hcode

end WiseKernel.Client
