import WiseKernel.Client.Pipeline

/-!
# Frames of the client

What `OnSend` appends to the send buffer, and one iteration of `OnRecv` at the
start of a whole frame.
-/

namespace WiseKernel.Client

open WiseKernel.Lib WiseKernel.Net

variable {P S : Type} {E : Env P S}

/-! ## Sending -/

theorem Filling.setMessageTopic_eq {s : BackedStream} {pre body : List UInt8} {n : ℕ}
    {topic : UInt32} (h : Filling s pre n topic body) {start : ℤ} (hstart : start = pre.length)
    (topic' : UInt32) :
    ∃ s', setMessageTopic s start topic' = .ok s' ∧ Filling s' pre n topic' body := by
  obtain ⟨rest, hs⟩ := h.framed
  obtain ⟨s', hpoke, hbuffer, hlength, hposition⟩ := BackedStream.poke_cut
    (pre ++ fieldBytes n) (fieldBytes topic.toNat) (fieldBytes topic'.toNat) (body ++ rest)
    (by rw [hs, header]; simp)
    (show start + lengthFieldSize = _ by simp [hstart, lengthFieldSize, fieldBytes]) rfl
  refine ⟨s', hpoke, ⟨rest, by rw [hbuffer, header]; simp⟩, ?_, ?_⟩
  · rw [hposition, h.position]
  · rw [hposition, hlength]
    exact h.inside

theorem BackedStream.position_eq (s : BackedStream) (hin : s.position ≤ s.length) :
    s.position = (s.buffer.take s.position).length := by
  have hle := s.length_le
  rw [List.length_take]
  omega

/-- The modifiers have a value of `count % CipherKeyChangeInterval` to work
with. -/
def Modifiers.Divide (E : Env P S) (flags : Flags) (c : Cipher) : Prop :=
  (E.settings.inForce flags).enableCipher = true → c.Divides E.settings.cipherKeyChangeInterval

/-- `OnSend` appends the frame and leaves what is before it. -/
theorem onSend_eq {m : Modifiers} {packet : P} {body : List UInt8}
    (hR : (E.settings.inForce (E.ops.flags packet)).enableCipher = true → E.runtime.Lawful)
    (hpack : E.ops.pack packet = (body, true))
    (hdiv : Modifiers.Divide E (E.ops.flags packet) m.cipher.sender)
    (hlt : 8 + (wire E.runtime (E.settings.inForce (E.ops.flags packet)) m body).length < 2 ^ 32)
    {sendBuf : BackedStream} (hin : sendBuf.position ≤ sendBuf.length) :
    ∃ s', onSend E m packet sendBuf =
        .ok (.success,
          m.sent E.runtime E.settings (E.settings.inForce (E.ops.flags packet)) body, s') ∧
      Filling s' (sendBuf.buffer.take sendBuf.position)
        (8 + (wire E.runtime (E.settings.inForce (E.ops.flags packet)) m body).length)
        (E.ops.topic packet)
        (wire E.runtime (E.settings.inForce (E.ops.flags packet)) m body) := by
  set on := E.settings.inForce (E.ops.flags packet) with hon
  set pre := sendBuf.buffer.take sendBuf.position with hpre
  have hprelen : pre.length = sendBuf.position := (sendBuf.position_eq hin).symm
  have hstart : (sendBuf.position : ℤ) = pre.length := by rw [hprelen]
  obtain ⟨rest, hbuffer, hposition, hinside⟩ := BackedStream.write_cut E.runtime.grow pre
    (sendBuf.buffer.drop sendBuf.position) (List.take_append_drop _ _).symm hprelen.symm hin
    dummyHeader
  have hdummy : dummyHeader = header 0x45464143 0x41424241 := rfl
  have hfill₀ :
      Filling (sendBuf.write E.runtime.grow dummyHeader) pre 0x45464143 0x41424241 [] := by
    refine ⟨⟨rest, ?_⟩, ?_, hinside⟩
    · rw [hbuffer, hdummy, List.append_nil]
    · rw [hposition]
      rfl
  have hfill₁ := hfill₀.write E.runtime.grow body
  rw [List.nil_append] at hfill₁
  set packed := (sendBuf.write E.runtime.grow dummyHeader).write E.runtime.grow body with hpacked
  have hlen₁ : (packed.position - (sendBuf.position : ℤ)).toNat % 2 ^ 32 = 8 + body.length := by
    have hle₁ := length_numbered_le E.runtime on m.sequence.sendSeq body
    have hle₂ := length_checked_le hR m body
    have hle₃ : body.length ≤ (numbered on m.sequence.sendSeq body).length := by
      unfold numbered
      split_ifs <;> simp
    rw [hfill₁.position, hstart]
    omega
  obtain ⟨s₂, hset₂, hfill₂⟩ := hfill₁.setMessageLength_eq hstart (8 + body.length)
  obtain ⟨s₃, hset₃, hfill₃⟩ := hfill₂.setMessageTopic_eq hstart (E.ops.topic packet)
  obtain ⟨s₄, hmod, hfill₄⟩ := modifySend_eq hR hdiv hfill₃ hstart hlt
  have hlen₄ : (s₄.position - (sendBuf.position : ℤ)).toNat % 2 ^ 32 =
      8 + (wire E.runtime on m body).length := by
    rw [hfill₄.position, hstart, ← hon]
    omega
  obtain ⟨s₅, hset₅, hfill₅⟩ := hfill₄.setMessageLength_eq hstart
    (8 + (wire E.runtime on m body).length)
  refine ⟨s₅, ?_, hfill₅⟩
  unfold onSend
  rw [hpack]
  change (setMessageLength packed sendBuf.position
    ((packed.position - (sendBuf.position : ℤ)).toNat % 2 ^ 32) >>= _) = _
  rw [hlen₁, hset₂]
  change (setMessageTopic s₂ sendBuf.position (E.ops.topic packet) >>= _) = _
  rw [hset₃]
  change (modifySend E.runtime E.settings (E.ops.flags packet) m s₃ sendBuf.position >>= _) = _
  rw [hmod]
  change (setMessageLength s₄ sendBuf.position
    ((s₄.position - (sendBuf.position : ℤ)).toNat % 2 ^ 32) >>= _) = _
  rw [hlen₄, hset₅]
  rfl

/-- The bytes that were appended to a send buffer. -/
def appended (sendBuf sendBuf' : BackedStream) : List UInt8 :=
  window sendBuf'.buffer sendBuf.position (sendBuf'.position - sendBuf.position)

theorem Filling.appended_eq {sendBuf sendBuf' : BackedStream} {pre body : List UInt8} {n : ℕ}
    {topic : UInt32} (h : Filling sendBuf' pre n topic body)
    (hpre : sendBuf.position = pre.length) :
    appended sendBuf sendBuf' = header n topic ++ body := by
  obtain ⟨rest, hbuffer⟩ := h.framed
  have hcut : sendBuf'.buffer = pre ++ (header n topic ++ body) ++ rest := by
    rw [hbuffer]
    simp
  rw [appended, hcut]
  refine window_append _ _ _ hpre ?_
  rw [h.position, hpre]
  simp only [List.length_append, length_header]
  omega

theorem Filling.keeps {sendBuf sendBuf' : BackedStream} {body : List UInt8} {n : ℕ}
    {topic : UInt32}
    (h : Filling sendBuf' (sendBuf.buffer.take sendBuf.position) n topic body)
    (hpre : sendBuf.position = (sendBuf.buffer.take sendBuf.position).length) :
    sendBuf.position ≤ sendBuf'.position ∧
      sendBuf'.buffer.take sendBuf.position = sendBuf.buffer.take sendBuf.position := by
  obtain ⟨rest, hbuffer⟩ := h.framed
  constructor
  · rw [h.position, ← hpre]
    omega
  · rw [hbuffer, List.append_assoc, List.append_assoc]
    exact List.take_left' hpre.symm

/-! ## Receiving -/

/-- The packet that the factory creates reads the body back. -/
structure Registered (E : Env P S) (packet : P) (body : List UInt8) (created : P) : Prop where
  packs : E.ops.pack packet = (body, true)
  creates : E.factory (E.ops.topic packet) = some created
  flags : E.ops.flags created = E.ops.flags packet
  unpacks : ∃ packer, (E.ops.unpack created packer body).ending = .accepted ∧
    (E.ops.unpack created packer body).packet = packet ∧
    (E.ops.unpack created packer body).used ≤ body.length

/-- The body is all that a packet needs, whatever stands behind it. -/
theorem Registered.unpack_append {packet created : P} {body : List UInt8}
    (h : Registered E packet body created) (packer : S) (rest : List UInt8) :
    (E.ops.unpack created packer (body ++ rest)).ending = .accepted ∧
      (E.ops.unpack created packer (body ++ rest)).packet = packet := by
  obtain ⟨packer₀, hending, hpacket, hused⟩ := h.unpacks
  obtain ⟨hending', hpacket', -⟩ := E.ops.unpack_congr created packer₀ packer body (body ++ rest)
    hused (List.take_append_of_le_length hused)
  exact ⟨hending'.trans hending, hpacket'.trans hpacket⟩

/-- The delivery of a frame whose body is restored in the stream. -/
theorem deliver_eq {packet created : P} {body : List UInt8}
    (hreg : Registered E packet body created) {st : LoopState P S} {r : Received}
    {pre : List UInt8} {n : ℕ} {topic : UInt32} (hpos : st.currentPosition = pre.length)
    (hframed : Framed r.packetBuf pre n topic body)
    (hinside : pre.length + 8 + body.length ≤ r.packetBuf.length) (messageLength : ℕ) :
    ∃ st', deliver E st created messageLength r = .next st' ∧
      st'.currentPosition = st.currentPosition + messageLength ∧
      st'.totalProcessedLen = st.totalProcessedLen + messageLength ∧
      st'.posted = st.posted ++ [packet] ∧ st'.mods = r.mods ∧
      st'.recvBuf.buffer = r.packetBuf.buffer ∧ st'.recvBuf.length = r.packetBuf.length := by
  obtain ⟨rest, hbuffer⟩ := hframed
  have hseen : (r.packetBuf.buffer.take r.packetBuf.length).drop
      (st.currentPosition + headerSize.toNat) =
      body ++ rest.take (r.packetBuf.length - (pre.length + 8 + body.length)) := by
    have hfront : (pre ++ header n topic).length = st.currentPosition + headerSize.toNat := by
      rw [List.length_append, length_header, hpos]
      rfl
    have hsplit : pre ++ header n topic ++ body ++ rest =
        (pre ++ header n topic) ++ (body ++ rest) := by simp
    rw [List.drop_take, hbuffer, hsplit, ← hfront, List.drop_left, List.take_append,
      List.take_of_length_le]
    · congr 2
      simp only [List.length_append, length_header]
      omega
    · simp only [List.length_append, length_header]
      omega
  obtain ⟨hending, hpacket⟩ := hreg.unpack_append st.packer
    (rest.take (r.packetBuf.length - (pre.length + 8 + body.length)))
  unfold deliver
  dsimp only
  rw [hseen, hending]
  refine ⟨_, rfl, rfl, rfl, ?_, rfl, rfl, rfl⟩
  rw [hpacket]

theorem Framed.getMessageTopic_eq {s : BackedStream} {pre body : List UInt8} {n : ℕ}
    {topic : UInt32} (h : Framed s pre n topic body) {start : ℤ} (hstart : start = pre.length) :
    getMessageTopic s start = .ok topic := by
  obtain ⟨rest, hs⟩ := h
  have hpeek : s.peek (start + lengthFieldSize) 4 = .ok (fieldBytes topic.toNat) :=
    BackedStream.peek_cut (pre ++ fieldBytes n) (fieldBytes topic.toNat) (body ++ rest)
      (by rw [hs, header]; simp) (by simp [hstart, lengthFieldSize, fieldBytes]) rfl
  have hvalue := fieldValue_fieldBytes [] topic.toNat [] (Eq.refl 0)
  rw [List.nil_append, List.append_nil, Nat.mod_eq_of_lt topic.toNat_lt] at hvalue
  rw [getMessageTopic, getField, hpeek]
  change Except.ok (UInt32.ofNat (fieldValue (fieldBytes topic.toNat) 0)) = _
  rw [hvalue, UInt32.ofNat_toNat]

/-- An iteration at the start of a frame reads its header, and the rest is
`deliver` on what `ModifyRecv` leaves. -/
theorem onRecvStep_eq {created : P} {st : LoopState P S} {pre text : List UInt8}
    {topic : UInt32} (hpos : st.currentPosition = pre.length)
    (hframed : Framed st.recvBuf pre (8 + text.length) topic text) {recvBufLength : ℕ}
    (hroom : st.currentPosition + 8 ≤ recvBufLength)
    (hmax : ((8 + text.length : ℕ) : ℤ) ≤ E.settings.maxPacketSize)
    (hcreated : E.factory topic = some created) {r : Received}
    (hmod : modifyRecv E.runtime E.settings (E.ops.flags created) st.mods st.recvBuf
      st.currentPosition = .ok r) (hcode : r.code = .success) :
    onRecvStep E recvBufLength st = deliver E st created (8 + text.length) r := by
  have hcur : (st.currentPosition : ℤ) = pre.length := by rw [hpos]
  have hlength : getMessageLength st.recvBuf st.currentPosition = .ok (8 + text.length) := by
    have hlt := E.settings.maxPacketSize_lt
    rw [hframed.getMessageLength_eq hcur, Nat.mod_eq_of_lt (by omega)]
  have htopic := hframed.getMessageTopic_eq hcur
  have hhead : (headerSize : ℤ) = 8 := rfl
  unfold onRecvStep
  rw [if_neg (by omega), hlength]
  dsimp only
  rw [if_neg (by omega), htopic]
  dsimp only
  rw [hcreated]
  dsimp only
  rw [hmod]
  dsimp only
  rw [if_neg (by simp [hcode])]

/-- The code behind the loop, when the bytes left fit into the caller's
array. -/
theorem carryOver_eq {st : LoopState P S} {pre tail rest : List UInt8}
    (hbuffer : st.recvBuf.buffer = pre ++ tail ++ rest)
    (htotal : st.totalProcessedLen = pre.length) {recvBufLength : ℕ}
    (hlength : recvBufLength = pre.length + tail.length) {buf : List UInt8}
    (hfits : tail.length ≤ buf.length) :
    carryOver recvBufLength st buf =
      ⟨.returned .success, ⟨st.recvBuf.seek tail.length, st.packer, st.mods⟩, st.posted,
        overwrite buf 0 tail⟩ := by
  have hrest : (recvBufLength : ℤ) - st.totalProcessedLen = tail.length := by omega
  have hpeek : st.recvBuf.peek st.totalProcessedLen tail.length = .ok tail :=
    BackedStream.peek_cut pre tail rest hbuffer (by rw [htotal]) rfl
  have hwrite : writeArray buf 0 tail = .ok (overwrite buf 0 tail) := by
    rw [writeArray, if_pos (by omega)]
    rfl
  unfold carryOver
  dsimp only
  rw [hrest, hpeek]
  have hbind : (Except.ok tail >>= writeArray buf 0 : Call (List UInt8)) =
      .ok (overwrite buf 0 tail) := hwrite
  rw [hbind]
  rfl

end WiseKernel.Client
