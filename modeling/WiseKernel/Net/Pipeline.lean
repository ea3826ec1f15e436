import WiseKernel.Net.BitsProtocol
import WiseKernel.Net.ModifierSpec

/-!
# The modifier pipeline as an inverse pair

`wrapBody` and `unwrapBody` are the pipeline seen from the body of a frame.
They undo each other as long as the two ends are in step, and one message
keeps them in step.  `send_modified` and `recv_modified` compute them, the
latter wherever the frame stands in the receive buffer.
-/

namespace WiseKernel.Net

open WiseKernel.Lib

/-! ## The pipeline on bodies -/

/-- The options that the static switches leave in force. -/
def Config.inForce (cfg : Config) (flags : Flags) : Flags where
  enableSequence := cfg.enableSequence && flags.enableSequence
  enableChecksum := cfg.enableChecksum && flags.enableChecksum
  enableCipher := cfg.enableCipher && flags.enableCipher

def wrapSequence (on : Bool) (m : Modifiers) (body : List UInt8) : Modifiers × List UInt8 :=
  if on then ({ m with sequencer.sendSeq := m.sequencer.sendSeq + 1 },
    body ++ [m.sequencer.sendSeq])
  else (m, body)

def unwrapSequence (on : Bool) (m : Modifiers) (body : List UInt8) :
    Option (Modifiers × List UInt8) :=
  if on then
    if body.getLast? = some m.sequencer.recvSeq then
      some ({ m with sequencer.recvSeq := m.sequencer.recvSeq + 1 }, body.dropLast)
    else none
  else some (m, body)

def wrapChecksum (B : Botan) (on : Bool) (body : List UInt8) : Option (List UInt8) :=
  if on then B.crc32.map fun hash ↦ Checksum.wrap hash body else some body

def unwrapChecksum (B : Botan) (on : Bool) (body : List UInt8) : Option (List UInt8) :=
  if on ∧ body ≠ [] then do
    let hash ← B.crc32
    let payload := body.take (body.length - 4)
    if 4 ≤ body.length ∧ body.drop (body.length - 4) = (hash payload).1 then some payload
    else none
  else some body

def wrapCipher (B : Botan) (interval : ℕ) (on : Bool) (m : Modifiers) (body : List UInt8) :
    Option (Modifiers × List UInt8) :=
  if on ∧ body ≠ [] then do
    let text ← Cipher.encrypt B m.cipher.sender body
    some ({ m with cipher.sender := m.cipher.sender.advance B interval body }, text)
  else some (m, body)

def unwrapCipher (B : Botan) (interval : ℕ) (on : Bool) (m : Modifiers) (body : List UInt8) :
    Option (Modifiers × List UInt8) :=
  if on ∧ body ≠ [] then
    if body.length % blockSize = 0 ∧ interval ≠ 0 then do
      let plain ← Cipher.decrypt B m.cipher.receiver body
      some ({ m with cipher.receiver := m.cipher.receiver.advance B interval plain }, plain)
    else none
  else some (m, body)

/-- The body as it goes on the wire, and the sender's modifiers after it. -/
def wrapBody (B : Botan) (cfg : Config) (flags : Flags) (m : Modifiers) (body : List UInt8) :
    Option (Modifiers × List UInt8) := do
  let on := cfg.inForce flags
  let (m, body) := wrapSequence on.enableSequence m body
  let body ← wrapChecksum B on.enableChecksum body
  wrapCipher B cfg.keyChangeInterval on.enableCipher m body

/-- The body behind a wire body, and the receiver's modifiers after it; `none`
when the frame is not accepted. -/
def unwrapBody (B : Botan) (cfg : Config) (flags : Flags) (m : Modifiers) (body : List UInt8) :
    Option (Modifiers × List UInt8) := do
  let on := cfg.inForce flags
  let (m, body) ← unwrapCipher B cfg.keyChangeInterval on.enableCipher m body
  let body ← unwrapChecksum B on.enableChecksum body
  unwrapSequence on.enableSequence m body

/-- The receiving half of `r` stands where the sending half of `s` stands. -/
structure InStep (s r : Modifiers) : Prop where
  cipher : r.cipher.receiver = s.cipher.sender
  sequence : r.sequencer.recvSeq = s.sequencer.sendSeq

theorem InStep.initial : InStep Modifiers.initial Modifiers.initial := ⟨rfl, rfl⟩

/-- The sequence stage of both ends; only the counters move. -/
theorem unwrapSequence_wrapSequence {s r : Modifiers}
    (h : r.sequencer.recvSeq = s.sequencer.sendSeq) (on : Bool) (body : List UInt8) :
    ∃ r', unwrapSequence on r (wrapSequence on s body).2 = some (r', body) ∧
      r'.sequencer.recvSeq = (wrapSequence on s body).1.sequencer.sendSeq ∧
      r'.cipher = r.cipher ∧ (wrapSequence on s body).1.cipher = s.cipher := by
  cases on with
  | false => exact ⟨r, rfl, h, rfl, rfl⟩
  | true =>
      refine ⟨{ r with sequencer.recvSeq := r.sequencer.recvSeq + 1 }, ?_, ?_, rfl, rfl⟩
      · simp [unwrapSequence, wrapSequence, h]
      · simp [wrapSequence, h]

theorem wrapChecksum_isSome {B : Botan} (hB : B.Lawful) (on : Bool) (body : List UInt8) :
    ∃ body', wrapChecksum B on body = some body' := by
  obtain ⟨hash, hhash⟩ := Option.isSome_iff_exists.mp hB.crc32_available
  cases on <;> simp [wrapChecksum, hhash]

theorem unwrapChecksum_wrapChecksum {B : Botan} {on : Bool} {body body' : List UInt8}
    (h : wrapChecksum B on body = some body') : unwrapChecksum B on body' = some body := by
  cases on with
  | false =>
      obtain rfl : body = body' := by simpa [wrapChecksum] using h
      simp [unwrapChecksum]
  | true =>
      obtain ⟨hash, hhash, rfl⟩ :
          ∃ hash, B.crc32 = some hash ∧ Checksum.wrap hash body = body' := by
        simpa [wrapChecksum] using h
      by_cases hbody : body = []
      · simp [unwrapChecksum, Checksum.wrap, hbody]
      · have hcut : (body ++ (hash body).1).length - 4 = body.length := by
          simp [(hash body).2]
        have hne : Checksum.wrap hash body ≠ [] := by simp [Checksum.wrap, hbody]
        rw [unwrapChecksum, if_pos ⟨rfl, hne⟩, hhash]
        simp only [Checksum.wrap, hbody, if_false, hcut, List.take_left, List.drop_left]
        simp [(hash body).2]

theorem wrapCipher_isSome {B : Botan} (hB : B.Lawful) (interval : ℕ) (on : Bool)
    (m : Modifiers) (body : List UInt8) :
    ∃ m' body', wrapCipher B interval on m body = some (m', body') := by
  by_cases h : on = true ∧ body ≠ []
  · obtain ⟨text, htext, -⟩ := Cipher.encrypt_isSome hB m.cipher.sender body
    exact ⟨{ m with cipher.sender := m.cipher.sender.advance B interval body }, text,
      by simp [wrapCipher, h, htext]⟩
  · exact ⟨m, body, by simp only [wrapCipher, if_neg h]⟩

/-- The cipher stage of both ends; only the key schedules move. -/
theorem unwrapCipher_wrapCipher {B : Botan} (hB : B.Lawful) {interval : ℕ}
    (hint : interval ≠ 0) {on : Bool} {s r s' : Modifiers}
    (h : r.cipher.receiver = s.cipher.sender) {body text : List UInt8}
    (hw : wrapCipher B interval on s body = some (s', text)) :
    ∃ r', unwrapCipher B interval on r text = some (r', body) ∧
      r'.cipher.receiver = s'.cipher.sender ∧
      r'.sequencer = r.sequencer ∧ s'.sequencer = s.sequencer := by
  by_cases hon : on = true ∧ body ≠ []
  · obtain ⟨text', htext, hlen⟩ := Cipher.encrypt_isSome hB s.cipher.sender body
    obtain ⟨rfl, rfl⟩ : { s with cipher.sender := s.cipher.sender.advance B interval body } = s' ∧
        text' = text := by
      simpa [wrapCipher, hon, htext] using hw
    have hne : text' ≠ [] := by
      intro hnil
      rw [hnil, List.length_nil] at hlen
      simp only [blockSize] at hlen
      omega
    have hblock : text'.length % blockSize = 0 := by
      rw [hlen]
      simp only [blockSize]
      omega
    have hdec : Cipher.decrypt B r.cipher.receiver text' = some body :=
      Cipher.decrypt_encrypt hB (by rw [h]) (by rw [h]) htext
    refine ⟨{ r with cipher.receiver := r.cipher.receiver.advance B interval body },
      ?_, by simp [h], rfl, rfl⟩
    simp [unwrapCipher, hon.1, hne, hblock, hint, hdec]
  · obtain ⟨rfl, rfl⟩ : s = s' ∧ body = text := by
      simpa only [wrapCipher, if_neg hon, Option.some.injEq, Prod.mk.injEq] using hw
    exact ⟨r, by simp only [unwrapCipher, if_neg hon], h, rfl, rfl⟩

theorem wrapBody_isSome {B : Botan} (hB : B.Lawful) (cfg : Config) (flags : Flags)
    (m : Modifiers) (body : List UInt8) :
    ∃ m' wire, wrapBody B cfg flags m body = some (m', wire) := by
  obtain ⟨crc, hcrc⟩ := wrapChecksum_isSome hB (cfg.inForce flags).enableChecksum
    (wrapSequence (cfg.inForce flags).enableSequence m body).2
  obtain ⟨m', wire, hwire⟩ := wrapCipher_isSome hB cfg.keyChangeInterval
    (cfg.inForce flags).enableCipher
    (wrapSequence (cfg.inForce flags).enableSequence m body).1 crc
  exact ⟨m', wire, by simp [wrapBody, hcrc, hwire]⟩

/-- One message through both ends gives the body back and keeps them in step. -/
theorem unwrapBody_wrapBody {B : Botan} (hB : B.Lawful) {cfg : Config}
    (hint : cfg.keyChangeInterval ≠ 0) {flags : Flags} {s r s' : Modifiers}
    (h : InStep s r) {body wire : List UInt8}
    (hw : wrapBody B cfg flags s body = some (s', wire)) :
    ∃ r', unwrapBody B cfg flags r wire = some (r', body) ∧ InStep s' r' := by
  simp only [wrapBody, Option.bind_eq_bind, Option.bind_eq_some_iff] at hw
  obtain ⟨crc, hcrc, hcipher⟩ := hw
  obtain ⟨hsCipher, hsSeq⟩ := h
  -- the stages are undone in the opposite order
  obtain ⟨r₀, hseq, -, -, hcipherKept⟩ := unwrapSequence_wrapSequence hsSeq
    (cfg.inForce flags).enableSequence body
  obtain ⟨r₁, hopen, hstep, hr₁, hs'⟩ := unwrapCipher_wrapCipher (r := r) hB hint
    (by rw [hsCipher, hcipherKept]) hcipher
  have hseq₁ : r₁.sequencer.recvSeq = s.sequencer.sendSeq := by rw [hr₁, hsSeq]
  obtain ⟨r₂, hlast, hcounter, hr₂, -⟩ := unwrapSequence_wrapSequence hseq₁
    (cfg.inForce flags).enableSequence body
  refine ⟨r₂, ?_, ?_, ?_⟩
  · simp [unwrapBody, hopen, unwrapChecksum_wrapChecksum hcrc, hlast]
  · rw [hr₂, hstep]
  · rw [hcounter, hs']

/-! ## The receiving code computes `unwrapBody` -/

section Receive

variable {B : Botan} {cfg : Config}

/-- A received frame in place: the body so far, then bytes that earlier stages
have left behind it. -/
def framed (pre header body junk post : List UInt8) : List UInt8 :=
  pre ++ header ++ (body ++ junk) ++ post

theorem stage_cipher (hB : B.Lawful) {on : Bool} {m m' : Modifiers} {body body' : List UInt8}
    (h : unwrapCipher B cfg.keyChangeInterval on m body = some (m', body'))
    (pre : List UInt8) {header : List UInt8} (hh : header.length = 8) (junk post : List UInt8) :
    ∃ junk', body'.length + junk'.length = body.length + junk.length ∧
      (Received.stage on (Received.cipher B cfg pre.length)
        ⟨.ok, m, framed pre header body junk post, 8 + body.length⟩).out =
          .ok ⟨.ok, m', framed pre header body' junk' post, 8 + body'.length⟩ := by
  by_cases hon : on = true
  · by_cases hbody : body = []
    · obtain ⟨rfl, rfl⟩ : m = m' ∧ body = body' := by
        simpa [unwrapCipher, hbody] using h
      refine ⟨junk, rfl, ?_⟩
      have hrecv := Cipher.onRecv_nil B cfg.keyChangeInterval m.cipher.receiver
        (framed pre header body junk post) pre.length
      simp only [Received.stage, hon, Result.ok_code, Bool.and_self, if_true, Received.cipher,
        headerLength, hbody, List.length_nil, Nat.add_zero] at hrecv ⊢
      rw [Traced.bind_of_ok hrecv]
      rfl
    · rw [unwrapCipher, if_pos ⟨hon, hbody⟩] at h
      split_ifs at h with hblock
      obtain ⟨plain, hplain, h⟩ := Option.bind_eq_some_iff.mp h
      obtain ⟨rfl, rfl⟩ : { m with cipher.receiver :=
          m.cipher.receiver.advance B cfg.keyChangeInterval plain } = m' ∧ plain = body' := by
        simpa using h
      have hrecv := Cipher.onRecv_blocks hB cfg.keyChangeInterval m.cipher.receiver pre header
        body (junk ++ post) hh rfl rfl hbody hblock.1
      simp only [hplain, if_neg hblock.2] at hrecv
      have hle : plain.length ≤ body.length := Cipher.length_decrypt_le hB hbody hblock.1 hplain
      refine ⟨body.drop plain.length ++ junk, by simp; omega, ?_⟩
      have hframe : framed pre header body junk post =
          pre ++ header ++ body ++ (junk ++ post) := by simp [framed]
      simp only [Received.stage, hon, Result.ok_code, Bool.and_self, if_true, Received.cipher,
        headerLength, hframe]
      rw [Traced.bind_of_ok hrecv]
      simp [framed]
  · obtain ⟨rfl, rfl⟩ : m = m' ∧ body = body' := by
      simpa [unwrapCipher, hon] using h
    exact ⟨junk, rfl, by simp [Received.stage, hon]⟩

theorem stage_checksum {on : Bool} {m : Modifiers} {body body' : List UInt8}
    (h : unwrapChecksum B on body = some body')
    (pre : List UInt8) {header : List UInt8} (hh : header.length = 8) (junk post : List UInt8) :
    ∃ junk', body'.length + junk'.length = body.length + junk.length ∧
      (Received.stage on (Received.checksum B pre.length)
        ⟨.ok, m, framed pre header body junk post, 8 + body.length⟩).out =
          .ok ⟨.ok, m, framed pre header body' junk' post, 8 + body'.length⟩ := by
  by_cases hon : on = true
  · by_cases hbody : body = []
    · obtain rfl : body = body' := by simpa [unwrapChecksum, hbody] using h
      refine ⟨junk, rfl, ?_⟩
      have hrecv := Checksum.onRecv_nil B (framed pre header body junk post) pre.length
      simp only [Received.stage, hon, Result.ok_code, Bool.and_self, if_true,
        Received.checksum, headerLength, hbody, List.length_nil, Nat.add_zero] at hrecv ⊢
      rw [Traced.bind_of_ok hrecv]
      rfl
    · rw [unwrapChecksum, if_pos ⟨hon, hbody⟩] at h
      obtain ⟨hash, hhash, h⟩ := Option.bind_eq_some_iff.mp h
      dsimp only at h
      split_ifs at h with hcrc
      obtain rfl : body.take (body.length - 4) = body' := by simpa using h
      set payload := body.take (body.length - 4) with hpayload
      have hlen : payload.length = body.length - 4 := by simp [hpayload]
      have hsplit : payload ++ body.drop (body.length - 4) = body :=
        List.take_append_drop _ _
      have hrecv := Checksum.onRecv_append hhash pre header payload
        (body.drop (body.length - 4)) (junk ++ post) hh (by simp; omega) rfl
        (show 8 + body.length = 8 + payload.length + 4 by omega)
      rw [if_pos hcrc.2, hsplit] at hrecv
      refine ⟨body.drop (body.length - 4) ++ junk, by simp; omega, ?_⟩
      have hframe : framed pre header body junk post =
          pre ++ header ++ body ++ (junk ++ post) := by simp [framed]
      have hframe' : framed pre header payload (body.drop (body.length - 4) ++ junk) post =
          framed pre header body junk post := by
        rw [framed, framed, ← List.append_assoc payload, hsplit]
      simp only [Received.stage, hon, Result.ok_code, Bool.and_self, if_true,
        Received.checksum, headerLength, hframe', hframe]
      rw [Traced.bind_of_ok hrecv]
      rfl
  · obtain rfl : body = body' := by simpa [unwrapChecksum, hon] using h
    exact ⟨junk, rfl, by simp [Received.stage, hon]⟩

theorem stage_sequencer {on : Bool} {m m' : Modifiers} {body body' : List UInt8}
    (h : unwrapSequence on m body = some (m', body'))
    (pre : List UInt8) {header : List UInt8} (hh : header.length = 8) (junk post : List UInt8) :
    ∃ junk', body'.length + junk'.length = body.length + junk.length ∧
      (Received.stage on (Received.sequencer pre.length)
        ⟨.ok, m, framed pre header body junk post, 8 + body.length⟩).out =
          .ok ⟨.ok, m', framed pre header body' junk' post, 8 + body'.length⟩ := by
  by_cases hon : on = true
  · simp only [unwrapSequence, hon, if_true] at h
    split_ifs at h with hlast
    obtain ⟨rfl, rfl⟩ : { m with sequencer.recvSeq := m.sequencer.recvSeq + 1 } = m' ∧
        body.dropLast = body' := by
      simpa using h
    have hsplit : body.dropLast ++ [m.sequencer.recvSeq] = body :=
      List.dropLast_append_getLast? _ hlast
    have hlen : body.length = body.dropLast.length + 1 := by
      conv_lhs => rw [← hsplit]
      simp
    have hrecv := m.sequencer.onRecv_append pre header body.dropLast (junk ++ post)
      m.sequencer.recvSeq rfl (show 8 + body.length = _ by rw [hh, hlen]; rfl)
    rw [if_pos rfl, hsplit, hh] at hrecv
    refine ⟨m.sequencer.recvSeq :: junk, by simp only [List.length_cons]; omega, ?_⟩
    have hframe : framed pre header body junk post =
        pre ++ header ++ body ++ (junk ++ post) := by simp [framed]
    have hframe' : framed pre header body.dropLast (m.sequencer.recvSeq :: junk) post =
        framed pre header body junk post := by
      conv_rhs => rw [← hsplit]
      simp [framed]
    simp only [Received.stage, hon, Result.ok_code, Bool.and_self, if_true,
      Received.sequencer, hframe', hframe]
    rw [Traced.bind_of_ok hrecv]
    rfl
  · obtain ⟨rfl, rfl⟩ : m = m' ∧ body = body' := by
      simpa [unwrapSequence, hon] using h
    exact ⟨junk, rfl, by simp [Received.stage, hon]⟩

/-- `recv_modified` on an accepted frame, at any place in a larger buffer: it
recovers the body in front of left-over bytes and touches nothing else. -/
theorem recvModified_of_unwrapBody (hB : B.Lawful)
    {flags : Flags} {m m' : Modifiers} {wire body : List UInt8}
    (h : unwrapBody B cfg flags m wire = some (m', body))
    (pre : List UInt8) {header : List UInt8} (hh : header.length = 8) (post : List UInt8) :
    ∃ junk, body.length + junk.length = wire.length ∧
      (recvModified B cfg flags m (pre ++ header ++ wire ++ post) pre.length
        (8 + wire.length)).out =
          .ok ⟨.ok, m', pre ++ header ++ (body ++ junk) ++ post, 8 + body.length⟩ := by
  simp only [unwrapBody, Option.bind_eq_bind, Option.bind_eq_some_iff, Prod.exists] at h
  obtain ⟨m₁, body₁, hcipher, body₂, hcrc, hseq⟩ := h
  obtain ⟨junk₁, hlen₁, hout₁⟩ := stage_cipher hB hcipher pre hh [] post
  obtain ⟨junk₂, hlen₂, hout₂⟩ := stage_checksum (m := m₁) hcrc pre hh junk₁ post
  obtain ⟨junk₃, hlen₃, hout₃⟩ := stage_sequencer hseq pre hh junk₂ post
  refine ⟨junk₃, by simpa [hlen₁, hlen₂] using hlen₃, ?_⟩
  have hframe : pre ++ header ++ wire ++ post = framed pre header wire [] post := by
    simp [framed]
  rw [recvModified, hframe]
  change (Received.stage (cfg.inForce flags).enableCipher (Received.cipher B cfg pre.length) _ >>=
    _).out = _
  rw [Traced.bind_of_ok hout₁]
  change (Received.stage (cfg.inForce flags).enableChecksum (Received.checksum B pre.length) _ >>=
    _).out = _
  rw [Traced.bind_of_ok hout₂]
  exact hout₃

end Receive

/-! ## The sending code computes `wrapBody` -/

section Send

variable {B : Botan} {cfg : Config}

/-- What a sending stage leaves of the header: the topic always, the whole
header when the body keeps its length.  When the body grows, the length field
is what `update_length_field` stores. -/
structure HeaderKept (header body header' body' : List UInt8) : Prop where
  length_eq : header'.length = 8
  topic_eq : header'.drop 4 = header.drop 4
  body_le : body.length ≤ body'.length
  same : body'.length = body.length → header' = header
  relabelled : body.length < body'.length → header' = relabel header (8 + body'.length)

theorem HeaderKept.refl {header : List UInt8} (h : header.length = 8) (body : List UInt8) :
    HeaderKept header body header body :=
  ⟨h, rfl, Nat.le_refl _, fun _ ↦ rfl, fun hlt ↦ absurd hlt (Nat.lt_irrefl _)⟩

theorem HeaderKept.relabel {header body body' : List UInt8} (h : header.length = 8)
    (hlt : body.length < body'.length) {n : ℕ} (hn : n = 8 + body'.length) :
    HeaderKept header body (relabel header n) body' where
  length_eq := length_relabel h n
  topic_eq := drop_relabel header n
  body_le := hlt.le
  same heq := absurd heq hlt.ne'
  relabelled _ := by rw [hn]

theorem HeaderKept.trans {h₀ b₀ h₁ b₁ h₂ b₂ : List UInt8} (h : HeaderKept h₀ b₀ h₁ b₁)
    (h' : HeaderKept h₁ b₁ h₂ b₂) : HeaderKept h₀ b₀ h₂ b₂ where
  length_eq := h'.length_eq
  topic_eq := h'.topic_eq.trans h.topic_eq
  body_le := h.body_le.trans h'.body_le
  same hlen := by
    have hb := h.body_le
    have hb' := h'.body_le
    rw [h'.same (by omega), h.same (by omega)]
  relabelled hlt := by
    rcases h'.body_le.lt_or_eq with hgrow | hkeep
    · rw [h'.relabelled hgrow, Net.relabel, Net.relabel, h.topic_eq]
    · rw [h'.same hkeep.symm, h.relabelled (by omega), hkeep]

theorem stage_sequencer_send (on : Bool) (m : Modifiers) {header : List UInt8}
    (h : header.length = 8) (body : List UInt8) :
    ∃ header', HeaderKept header body header' (wrapSequence on m body).2 ∧
      (Sending.stage on Sending.sequencer ⟨.ok, m, header ++ body⟩).out =
        .ok ⟨.ok, (wrapSequence on m body).1, header' ++ (wrapSequence on m body).2⟩ := by
  cases on with
  | false => exact ⟨header, .refl h body, rfl⟩
  | true =>
      refine ⟨_, .relabel h (by simp [wrapSequence])
        (n := (header ++ body).length + Sequencer.sequenceSize) ?_, ?_⟩
      · simp [wrapSequence, Sequencer.sequenceSize, h]
        omega
      · change (m.sequencer.onSend (header ++ body) 0 (header ++ body).length >>= _).out = _
        rw [Traced.bind_of_ok (m.sequencer.onSend_front h body)]
        rfl

theorem stage_checksum_send {on : Bool} (m : Modifiers) {header body body' : List UInt8}
    (h : header.length = 8) (hw : wrapChecksum B on body = some body') :
    ∃ header', HeaderKept header body header' body' ∧
      (Sending.stage on (Sending.checksum B) ⟨.ok, m, header ++ body⟩).out =
        .ok ⟨.ok, m, header' ++ body'⟩ := by
  cases on with
  | false =>
      obtain rfl : body = body' := by simpa [wrapChecksum] using hw
      exact ⟨header, .refl h body, rfl⟩
  | true =>
      obtain ⟨hash, hhash, rfl⟩ :
          ∃ hash, B.crc32 = some hash ∧ Checksum.wrap hash body = body' := by
        simpa [wrapChecksum] using hw
      by_cases hbody : body = []
      · subst hbody
        refine ⟨header, .refl h [], ?_⟩
        change (Checksum.onSend B 8 (header ++ []) 0 (header ++ []).length >>= _).out = _
        rw [List.append_nil, Traced.bind_of_ok (Checksum.onSend_nil B h)]
        simp [Checksum.wrap]
      · have hlen : (Checksum.wrap hash body).length = body.length + 4 := by
          simp [Checksum.wrap, hbody, (hash body).2]
        refine ⟨_, .relabel h (by omega)
          (n := (header ++ body).length + Checksum.checksumSize) ?_, ?_⟩
        · rw [hlen, List.length_append, h, Checksum.checksumSize]
          omega
        · change (Checksum.onSend B 8 (header ++ body) 0 (header ++ body).length >>= _).out = _
          rw [Traced.bind_of_ok (Checksum.onSend_front hhash h hbody)]
          rfl

theorem stage_cipher_send (hB : B.Lawful) {on : Bool} {m m' : Modifiers}
    {header body text : List UInt8} (hint : on = true → body ≠ [] → cfg.keyChangeInterval ≠ 0)
    (h : header.length = 8)
    (hw : wrapCipher B cfg.keyChangeInterval on m body = some (m', text)) :
    ∃ header', HeaderKept header body header' text ∧
      (Sending.stage on (Sending.cipher B cfg) ⟨.ok, m, header ++ body⟩).out =
        .ok ⟨.ok, m', header' ++ text⟩ := by
  by_cases hon : on = true ∧ body ≠ []
  · obtain ⟨text', htext, hlen⟩ := Cipher.encrypt_isSome hB m.cipher.sender body
    obtain ⟨rfl, rfl⟩ :
        { m with cipher.sender := m.cipher.sender.advance B cfg.keyChangeInterval body } = m' ∧
          text' = text := by
      simpa [wrapCipher, hon, htext] using hw
    have hout := Cipher.onSend_front hB cfg.keyChangeInterval m.cipher.sender h hon.2 htext
    rw [if_neg (hint hon.1 hon.2)] at hout
    have hpad : 0 < blockSize - body.length % blockSize := by
      simp only [blockSize]
      omega
    refine ⟨_, .relabel h (by omega)
      (n := (header ++ body).length + (blockSize - body.length % blockSize)) ?_, ?_⟩
    · rw [hlen, List.length_append, h]
      omega
    · rw [Sending.stage, hon.1]
      change (Cipher.onSend B cfg.keyChangeInterval 8 m.cipher.sender (header ++ body) 0
        (header ++ body).length >>= _).out = _
      rw [Traced.bind_of_ok hout]
      rfl
  · obtain ⟨rfl, rfl⟩ : m = m' ∧ body = text := by
      simpa only [wrapCipher, if_neg hon, Option.some.injEq, Prod.mk.injEq] using hw
    refine ⟨header, .refl h body, ?_⟩
    cases on with
    | false => rfl
    | true =>
        obtain rfl : body = [] := by simpa using hon
        change (Cipher.onSend B cfg.keyChangeInterval 8 m.cipher.sender (header ++ []) 0
          (header ++ []).length >>= _).out = _
        rw [List.append_nil, Traced.bind_of_ok (Cipher.onSend_nil B _ _ h)]
        rfl

/-- The length of a body behind its sequence number and checksum. -/
def Flags.checkedLength (on : Flags) (n : ℕ) : ℕ :=
  let n := if on.enableSequence then n + 1 else n
  if on.enableChecksum ∧ n ≠ 0 then n + 4 else n

/-- The length of a body on the wire. -/
def Flags.wireLength (on : Flags) (n : ℕ) : ℕ :=
  let n := on.checkedLength n
  if on.enableCipher ∧ n ≠ 0 then n + (blockSize - n % blockSize) else n

/-- The cipher completes a message of this length: it takes the message count
modulo the key change interval. -/
def Config.Completes (cfg : Config) (flags : Flags) (n : ℕ) : Prop :=
  (cfg.inForce flags).enableCipher = true → (cfg.inForce flags).checkedLength n ≠ 0 →
    cfg.keyChangeInterval ≠ 0

theorem length_wrapChecksum {on : Flags} {m : Modifiers} {body crc : List UInt8}
    (h : wrapChecksum B on.enableChecksum (wrapSequence on.enableSequence m body).2 = some crc) :
    crc.length = on.checkedLength body.length := by
  have hseq : (wrapSequence on.enableSequence m body).2.length =
      if on.enableSequence then body.length + 1 else body.length := by
    cases on.enableSequence <;> simp [wrapSequence]
  cases hon : on.enableChecksum with
  | false =>
      obtain rfl : _ = crc := by simpa [wrapChecksum, hon] using h
      simp [Flags.checkedLength, hon, hseq]
  | true =>
      obtain ⟨hash, -, rfl⟩ : ∃ hash, B.crc32 = some hash ∧
          Checksum.wrap hash (wrapSequence on.enableSequence m body).2 = crc := by
        simpa [wrapChecksum, hon] using h
      rw [Flags.checkedLength, ← hseq]
      by_cases hnil : (wrapSequence on.enableSequence m body).2 = []
      · simp [Checksum.wrap, hnil]
      · simp [Checksum.wrap, hnil, hon, (hash _).2]

theorem length_wrapBody (hB : B.Lawful) {flags : Flags} {m m' : Modifiers}
    {body wire : List UInt8} (h : wrapBody B cfg flags m body = some (m', wire)) :
    wire.length = (cfg.inForce flags).wireLength body.length := by
  simp only [wrapBody, Option.bind_eq_bind, Option.bind_eq_some_iff] at h
  obtain ⟨crc, hcrc, hcipher⟩ := h
  have hlen := length_wrapChecksum hcrc
  have hnil : crc ≠ [] ↔ (cfg.inForce flags).checkedLength body.length ≠ 0 := by
    rw [← hlen, ne_eq, ne_eq, List.length_eq_zero_iff]
  by_cases hon : (cfg.inForce flags).enableCipher = true ∧ crc ≠ []
  · obtain ⟨text, htext, htextLen⟩ := Cipher.encrypt_isSome hB
      (wrapSequence (cfg.inForce flags).enableSequence m body).1.cipher.sender crc
    simp only [wrapCipher, if_pos hon, htext, Option.bind_eq_bind, Option.bind_some,
      Option.some.injEq, Prod.mk.injEq] at hcipher
    rw [Flags.wireLength, if_pos ⟨hon.1, hnil.mp hon.2⟩, ← hcipher.2, htextLen, hlen]
  · rw [wrapCipher, if_neg hon] at hcipher
    obtain ⟨-, rfl⟩ := Prod.mk.inj (Option.some.inj hcipher)
    rw [Flags.wireLength, if_neg (fun h ↦ hon ⟨h.1, hnil.mpr h.2⟩), hlen]

/-- The header a frame carries to the socket: its length field is stored again
when the frame has grown. -/
def wireHeader (header body wire : List UInt8) : List UInt8 :=
  if body.length < wire.length then
    fieldBytes ((8 + wire.length) % 2 ^ 32) ++ header.drop 4
  else header

theorem setLength_front {header : List UInt8} (h : header.length = 8) (n : ℕ)
    (rest : List UInt8) :
    setLength n (header ++ rest) 0 = fieldBytes n ++ header.drop 4 ++ rest := by
  have hsplit : header ++ rest = [] ++ header.take 4 ++ (header.drop 4 ++ rest) := by
    rw [List.nil_append, ← List.append_assoc, List.take_append_drop]
  rw [setLength, hsplit, overwrite_append [] (header.take 4) (fieldBytes n) _ (Eq.refl 0)
    (by simp [h, fieldBytes])]
  simp

/-- `send_modified` hands over the wrapped body behind a header with the same
topic. -/
theorem sendModified_of_wrapBody (hB : B.Lawful) {flags : Flags} {m m' : Modifiers}
    {header body wire : List UInt8} (hint : cfg.Completes flags body.length)
    (h : header.length = 8)
    (hw : wrapBody B cfg flags m body = some (m', wire)) :
    ∃ header', HeaderKept header body header' wire ∧
      (sendModified B cfg flags m (header ++ body)).out = .ok (.ok, m',
        some (if cfg.enableLoopback then .loopback (header' ++ wire)
          else .tcp (wireHeader header body wire ++ wire))) := by
  simp only [wrapBody, Option.bind_eq_bind, Option.bind_eq_some_iff] at hw
  obtain ⟨crc, hcrc, hcipher⟩ := hw
  obtain ⟨h₁, hk₁, hout₁⟩ := stage_sequencer_send (cfg.inForce flags).enableSequence m
    h body
  obtain ⟨h₂, hk₂, hout₂⟩ := stage_checksum_send
    (wrapSequence (cfg.inForce flags).enableSequence m body).1 hk₁.length_eq hcrc
  obtain ⟨h₃, hk₃, hout₃⟩ := stage_cipher_send hB (fun hon hne ↦ hint hon (by
    rwa [← length_wrapChecksum hcrc, ne_eq, List.length_eq_zero_iff])) hk₂.length_eq hcipher
  have hkept := (hk₁.trans hk₂).trans hk₃
  refine ⟨h₃, hkept, ?_⟩
  change (Sending.stage (cfg.inForce flags).enableSequence Sending.sequencer _ >>= _).out = _
  rw [Traced.bind_of_ok hout₁]
  change (Sending.stage (cfg.inForce flags).enableChecksum (Sending.checksum B) _ >>= _).out = _
  rw [Traced.bind_of_ok hout₂]
  change (Sending.stage (cfg.inForce flags).enableCipher (Sending.cipher B cfg) _ >>= _).out = _
  rw [Traced.bind_of_ok hout₃]
  have hlen : (h₃ ++ wire).length = 8 + wire.length := by simp [hkept.length_eq]
  have hlen' : (header ++ body).length = 8 + body.length := by simp [h]
  simp only [Result.ok_code, Bool.true_eq_false, if_false, hlen, hlen']
  cases cfg.enableLoopback with
  | true => rfl
  | false =>
      have hle := hkept.body_le
      by_cases hgrow : body.length < wire.length
      · have hgrow' : 8 + body.length < 8 + wire.length := by omega
        simp [wireHeader, hgrow, hgrow', setLength_front hkept.length_eq, hkept.topic_eq]
      · have hgrow' : ¬ 8 + body.length < 8 + wire.length := by omega
        simp [wireHeader, hgrow, hgrow', hkept.same (by omega)]

end Send

end WiseKernel.Net
