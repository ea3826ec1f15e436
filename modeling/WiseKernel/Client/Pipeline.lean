import WiseKernel.Client.ModifierSpec
import WiseKernel.Net.Pipeline

/-!
# The client's modifier pipeline

`ModifySend` and `ModifyRecv` seen from the body of a frame: the bytes on the
wire, what a receiver opens them to, and the modifiers afterwards.
-/

namespace WiseKernel.Client

open WiseKernel.Lib WiseKernel.Net

/-! ## The pipeline on bodies -/

section

variable {R : Runtime} {S : Settings}

/-- The body behind its sequence number. -/
def numbered (on : Flags) (seq : UInt8) (body : List UInt8) : List UInt8 :=
  if on.enableSequence then body ++ [seq] else body

/-- The body behind its sequence number and checksum. -/
def checked (R : Runtime) (on : Flags) (seq : UInt8) (body : List UInt8) : List UInt8 :=
  if on.enableChecksum then ChecksumModifier.wrap R (numbered on seq body)
  else numbered on seq body

/-- The body as it goes on the wire. -/
def wire (R : Runtime) (on : Flags) (m : Modifiers) (body : List UInt8) : List UInt8 :=
  let plain := checked R on m.sequence.sendSeq body
  if on.enableCipher then R.encrypt m.cipher.sender.key m.cipher.sender.iv plain else plain

/-- The modifiers of the sender after a message. -/
def Modifiers.sent (R : Runtime) (S : Settings) (on : Flags) (m : Modifiers)
    (body : List UInt8) : Modifiers where
  sequence := if on.enableSequence then { m.sequence with sendSeq := m.sequence.sendSeq + 1 }
    else m.sequence
  cipher :=
    let plain := checked R on m.sequence.sendSeq body
    if on.enableCipher then
      { m.cipher with sender := m.cipher.sender.advance R S.cipherKeyChangeInterval plain }
    else m.cipher

/-- The modifiers of the receiver after a message. -/
def Modifiers.received (R : Runtime) (S : Settings) (on : Flags) (m : Modifiers)
    (body : List UInt8) : Modifiers where
  sequence := if on.enableSequence then { m.sequence with recvSeq := m.sequence.recvSeq + 1 }
    else m.sequence
  cipher :=
    let plain := checked R on m.sequence.recvSeq body
    if on.enableCipher then
      { m.cipher with recevier := m.cipher.recevier.advance R S.cipherKeyChangeInterval plain }
    else m.cipher

/-- The wire body that a receiver opens to a body. -/
def Opens (R : Runtime) (on : Flags) (m : Modifiers) (text body : List UInt8) : Prop :=
  let plain := checked R on m.sequence.recvSeq body
  if on.enableCipher then
    R.decrypt m.cipher.recevier.key m.cipher.recevier.iv text = some plain ∧
      plain.length ≤ text.length
  else text = plain

theorem ChecksumModifier.length_wrap (R : Runtime) (body : List UInt8) :
    (ChecksumModifier.wrap R body).length = if body = [] then 0 else body.length + 4 := by
  unfold ChecksumModifier.wrap
  split_ifs
  · rfl
  · rw [List.length_append, length_take_computeHash]

theorem length_numbered_le (R : Runtime) (on : Flags) (seq : UInt8) (body : List UInt8) :
    (numbered on seq body).length ≤ (checked R on seq body).length := by
  unfold checked
  split_ifs
  · rw [ChecksumModifier.length_wrap]
    split_ifs with hnil
    · simp [hnil]
    · omega
  · exact Nat.le_refl _

theorem length_checked_le {on : Flags} (hR : on.enableCipher = true → R.Lawful) (m : Modifiers)
    (body : List UInt8) :
    (checked R on m.sequence.sendSeq body).length ≤ (wire R on m body).length := by
  unfold wire
  dsimp only
  split_ifs with hcipher
  · rw [(hR hcipher).encrypt_length]
    omega
  · exact Nat.le_refl _

/-- The length of a body on the wire; an empty one is padded too. -/
def Flags.sealedLength (on : Flags) (n : ℕ) : ℕ :=
  let n := on.checkedLength n
  if on.enableCipher then n + (blockSize - n % blockSize) else n

theorem length_checked (R : Runtime) (on : Flags) (seq : UInt8) (body : List UInt8) :
    (checked R on seq body).length = on.checkedLength body.length := by
  have hnumbered : (numbered on seq body).length =
      if on.enableSequence then body.length + 1 else body.length := by
    unfold numbered
    split_ifs <;> simp
  rw [Flags.checkedLength, ← hnumbered, checked]
  split_ifs with hon hlen hlen
  · rw [ChecksumModifier.length_wrap, if_neg (by simpa using hlen.2)]
  · have hnil : numbered on seq body = [] := by simpa [hon] using hlen
    rw [ChecksumModifier.length_wrap, if_pos hnil, hnil]
    rfl
  · exact absurd hlen.1 hon
  · rfl

theorem length_wire (hR : R.Lawful) (on : Flags) (m : Modifiers) (body : List UInt8) :
    (wire R on m body).length = Flags.sealedLength on body.length := by
  unfold wire Flags.sealedLength
  rw [← length_checked R on m.sequence.sendSeq]
  dsimp only
  split_ifs
  · rw [hR.encrypt_length]
  · rfl

theorem stage_sequence_send {on : Flags} (m : Modifiers) {s : BackedStream}
    {pre body : List UInt8} {topic : UInt32} (h : Filling s pre (8 + body.length) topic body)
    {start : ℤ} (hstart : start = pre.length)
    (hlt : 8 + (numbered on m.sequence.sendSeq body).length < 2 ^ 32) :
    ∃ s', Sending.stage on.enableSequence (Sending.sequence R start) ⟨m, s⟩ =
        .ok ⟨{ m with sequence := (m.sent R S on body).sequence }, s'⟩ ∧
      Filling s' pre (8 + (numbered on m.sequence.sendSeq body).length) topic
        (numbered on m.sequence.sendSeq body) := by
  cases hseq : on.enableSequence with
  | false =>
      refine ⟨s, ?_, by simpa [numbered, hseq] using h⟩
      simp only [Sending.stage, Modifiers.sent, hseq]
      rfl
  | true =>
      simp only [numbered, hseq, if_true, List.length_append, List.length_singleton] at hlt ⊢
      obtain ⟨s', hout, hfill⟩ := m.sequence.modifySend_eq (R := R) h hstart rfl (by omega)
      refine ⟨s', ?_, hfill⟩
      change (m.sequence.modifySend R s start >>= _) = _
      rw [hout]
      simp only [Modifiers.sent, hseq]
      rfl

theorem stage_checksum_send {on : Bool} {m : Modifiers} {s : BackedStream}
    {pre body : List UInt8} {topic : UInt32} (h : Filling s pre (8 + body.length) topic body)
    {start : ℤ} (hstart : start = pre.length)
    (hlt : 8 + (if on then ChecksumModifier.wrap R body else body).length < 2 ^ 32) :
    ∃ s', Sending.stage on (Sending.checksum R start) ⟨m, s⟩ = .ok ⟨m, s'⟩ ∧
      Filling s' pre (8 + (if on then ChecksumModifier.wrap R body else body).length) topic
        (if on then ChecksumModifier.wrap R body else body) := by
  cases on with
  | false => exact ⟨s, rfl, h⟩
  | true =>
      simp only [if_true] at hlt ⊢
      have hfits : 8 + body.length + 4 < 2 ^ 32 := by
        rw [ChecksumModifier.length_wrap] at hlt
        split_ifs at hlt with hnil
        · simp [hnil]
        · omega
      obtain ⟨s', hout, hfill⟩ := ChecksumModifier.modifySend_eq h hstart rfl hfits
      refine ⟨s', ?_, hfill⟩
      change (ChecksumModifier.modifySend R s start >>= _) = _
      rw [hout]
      rfl

theorem modifySend_eq {flags : Flags} {m : Modifiers}
    (hR : (S.inForce flags).enableCipher = true → R.Lawful)
    (hdiv : (S.inForce flags).enableCipher = true →
      m.cipher.sender.Divides S.cipherKeyChangeInterval)
    {s : BackedStream} {pre body : List UInt8} {topic : UInt32}
    (h : Filling s pre (8 + body.length) topic body) {start : ℤ} (hstart : start = pre.length)
    (hlt : 8 + (wire R (S.inForce flags) m body).length < 2 ^ 32) :
    ∃ s', modifySend R S flags m s start = .ok ⟨m.sent R S (S.inForce flags) body, s'⟩ ∧
      Filling s' pre (8 + (wire R (S.inForce flags) m body).length) topic
        (wire R (S.inForce flags) m body) := by
  set on := S.inForce flags with hon
  have hle₁ := length_numbered_le R on m.sequence.sendSeq body
  have hle₂ := length_checked_le hR m body
  obtain ⟨s₁, hout₁, hfill₁⟩ := stage_sequence_send (R := R) (S := S) m h hstart
    (show 8 + (numbered on m.sequence.sendSeq body).length < _ by omega)
  obtain ⟨s₂, hout₂, hfill₂⟩ : ∃ s₂, Sending.stage on.enableChecksum (Sending.checksum R start)
      ⟨{ m with sequence := (m.sent R S on body).sequence }, s₁⟩ =
        .ok ⟨{ m with sequence := (m.sent R S on body).sequence }, s₂⟩ ∧
      Filling s₂ pre (8 + (checked R on m.sequence.sendSeq body).length) topic
        (checked R on m.sequence.sendSeq body) :=
    stage_checksum_send hfill₁ hstart
      (show 8 + (checked R on m.sequence.sendSeq body).length < _ by omega)
  unfold modifySend
  rw [← hon]
  change ∃ s', (Sending.stage on.enableSequence (Sending.sequence R start) ⟨m, s⟩ >>= _) = _ ∧ _
  rw [hout₁]
  change ∃ s', (Sending.stage on.enableChecksum (Sending.checksum R start)
    ⟨{ m with sequence := (m.sent R S on body).sequence }, s₁⟩ >>= _) = _ ∧ _
  rw [hout₂]
  cases hcipher : on.enableCipher with
  | false =>
      refine ⟨s₂, ?_, by simpa [wire, hcipher] using hfill₂⟩
      simp only [hcipher, Modifiers.sent]
      rfl
  | true =>
      have hwire : wire R on m body = R.encrypt m.cipher.sender.key m.cipher.sender.iv
          (checked R on m.sequence.sendSeq body) := by simp [wire, hcipher]
      obtain ⟨s₃, hout, hfill⟩ := CipherModifier.modifySend_eq (hR hcipher)
        (hdiv hcipher) hfill₂ hstart rfl
        (by rw [← hwire]; exact hlt)
      refine ⟨s₃, ?_, by rw [hwire]; exact hfill⟩
      change (m.cipher.modifySend R S s₂ start >>= _) = _
      rw [hout]
      simp only [Modifiers.sent, hcipher, if_true]
      rfl

/-- `ModifyRecv` on a frame that opens. -/
theorem modifyRecv_eq {flags : Flags} {m : Modifiers}
    (hdiv : (S.inForce flags).enableCipher = true →
      m.cipher.recevier.Divides S.cipherKeyChangeInterval)
    {s : BackedStream} {pre text body : List UInt8} {topic : UInt32}
    (h : Framed s pre (8 + text.length) topic text) {start : ℤ} (hstart : start = pre.length)
    (hlt : 8 + text.length < 2 ^ 32) (hopen : Opens R (S.inForce flags) m text body) :
    ∃ s', modifyRecv R S flags m s start =
        .ok ⟨.success, m.received R S (S.inForce flags) body, s'⟩ ∧
      Framed s' pre (8 + body.length) topic body ∧ s'.length = s.length ∧
      s'.position = s.position := by
  set on := S.inForce flags with hon
  have hle := length_numbered_le R on m.sequence.recvSeq body
  set plain := checked R on m.sequence.recvSeq body with hplain
  have hplainLe : plain.length ≤ text.length := by
    unfold Opens at hopen
    dsimp only at hopen
    split_ifs at hopen with hcipher
    · exact hopen.2
    · rw [hopen]
  obtain ⟨s₁, hout₁, hframed₁, hlength₁, hposition₁⟩ : ∃ s₁,
      Received.stage on.enableCipher (Received.cipher R S start) ⟨.success, m, s⟩ =
        .ok ⟨.success, { m with cipher := (m.received R S on body).cipher }, s₁⟩ ∧
      Framed s₁ pre (8 + plain.length) topic plain ∧ s₁.length = s.length ∧
      s₁.position = s.position := by
    cases hcipher : on.enableCipher with
    | false =>
        obtain rfl : text = plain := by simpa [Opens, hcipher] using hopen
        refine ⟨s, ?_, h, rfl, rfl⟩
        simp [Received.stage, Modifiers.received, hcipher]
        rfl
    | true =>
        have hdec : R.decrypt m.cipher.recevier.key m.cipher.recevier.iv text = some plain := by
          simp only [Opens, hcipher, if_true] at hopen
          exact hopen.1
        obtain ⟨s₁, hout, hframed, hlength, hposition⟩ := CipherModifier.modifyRecv_eq
          (hdiv hcipher) h hstart rfl hlt hdec hplainLe
        refine ⟨s₁, ?_, hframed, hlength, hposition⟩
        change (m.cipher.modifyRecv R S s start >>= _) = _
        rw [hout]
        simp only [Modifiers.received, hcipher, if_true, ← hplain]
        rfl
  obtain ⟨s₂, hout₂, hframed₂, hlength₂, hposition₂⟩ : ∃ s₂,
      Received.stage on.enableChecksum (Received.checksum R start)
        ⟨.success, { m with cipher := (m.received R S on body).cipher }, s₁⟩ =
        .ok ⟨.success, { m with cipher := (m.received R S on body).cipher }, s₂⟩ ∧
      Framed s₂ pre (8 + (numbered on m.sequence.recvSeq body).length) topic
        (numbered on m.sequence.recvSeq body) ∧ s₂.length = s₁.length ∧
      s₂.position = s₁.position := by
    have hchecked : plain =
        if on.enableChecksum then ChecksumModifier.wrap R (numbered on m.sequence.recvSeq body)
        else numbered on m.sequence.recvSeq body := rfl
    cases hsum : on.enableChecksum with
    | false =>
        rw [hchecked, hsum] at hframed₁
        exact ⟨s₁, rfl, hframed₁, rfl, rfl⟩
    | true =>
        have hwrap : plain = ChecksumModifier.wrap R (numbered on m.sequence.recvSeq body) := by
          simpa [hsum] using hchecked
        rw [hwrap] at hframed₁
        obtain ⟨s₂, hout, hframed, hlength, hposition⟩ := ChecksumModifier.modifyRecv_eq hframed₁
          hstart rfl (by rw [← hwrap]; omega)
        refine ⟨s₂, ?_, hframed, hlength, hposition⟩
        change (ChecksumModifier.modifyRecv R s₁ start >>= _) = _
        rw [hout]
        rfl
  obtain ⟨s₃, hout₃, hframed₃, hlength₃, hposition₃⟩ : ∃ s₃,
      Received.stage on.enableSequence (Received.sequence start)
        ⟨.success, { m with cipher := (m.received R S on body).cipher }, s₂⟩ =
        .ok ⟨.success, m.received R S on body, s₃⟩ ∧
      Framed s₃ pre (8 + body.length) topic body ∧ s₃.length = s₂.length ∧
      s₃.position = s₂.position := by
    cases hseq : on.enableSequence with
    | false =>
        refine ⟨s₂, ?_, by simpa [numbered, hseq] using hframed₂, rfl, rfl⟩
        simp [Received.stage, Modifiers.received, hseq]
        rfl
    | true =>
        have hnum : numbered on m.sequence.recvSeq body = body ++ [m.sequence.recvSeq] := by
          simp [numbered, hseq]
        rw [hnum] at hframed₂
        rw [hnum, List.length_append, List.length_singleton] at hle
        obtain ⟨s₃, hout, hframed, hlength, hposition⟩ := m.sequence.modifyRecv_eq hframed₂ hstart
          (by simp [Nat.add_assoc])
          (by simp only [List.length_append, List.length_singleton]; omega)
        refine ⟨s₃, ?_, hframed, hlength, hposition⟩
        change (m.sequence.modifyRecv s₂ start >>= _) = _
        rw [hout]
        simp only [Modifiers.received, hseq, if_true]
        rfl
  refine ⟨s₃, ?_, hframed₃, by rw [hlength₃, hlength₂, hlength₁],
    by rw [hposition₃, hposition₂, hposition₁]⟩
  unfold modifyRecv
  rw [← hon]
  change (Received.stage on.enableCipher (Received.cipher R S start) ⟨.success, m, s⟩ >>= _) = _
  rw [hout₁]
  change (Received.stage on.enableChecksum (Received.checksum R start)
    ⟨.success, { m with cipher := (m.received R S on body).cipher }, s₁⟩ >>= _) = _
  rw [hout₂]
  exact hout₃

end

end WiseKernel.Client
