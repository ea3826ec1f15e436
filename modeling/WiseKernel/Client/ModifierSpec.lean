import WiseKernel.Client.Protocol
import WiseKernel.Net.ReceiveLoop

/-!
# What the client's modifiers do to a body

The modifiers stated on the body of a frame, and the buffer code shown to
compute exactly these functions wherever the frame stands.  Unlike on the
server, an empty body is encrypted too, and the key schedule chains the whole
array of the work stream.
-/

namespace WiseKernel.Client

open WiseKernel.Lib WiseKernel.Net

theorem Call.bind_eq_ok {α β : Type} {x : Call α} {f : α → Call β} {b : β} :
    (x >>= f) = .ok b ↔ ∃ a, x = .ok a ∧ f a = .ok b := by
  constructor
  · intro h
    cases x with
    | error e => cases h
    | ok a => exact ⟨a, rfl, h⟩
  · rintro ⟨a, rfl, h⟩
    exact h

/-! ## Arrays and streams cut in pieces -/

theorem readArray_cut (pre mid post : List UInt8) {arr : List UInt8} {offset count : ℤ}
    (harr : arr = pre ++ mid ++ post) (hoffset : offset = pre.length)
    (hcount : count = mid.length) : readArray arr offset count = .ok mid := by
  subst harr hoffset hcount
  rw [readArray, if_pos (by simp only [List.length_append]; omega)]
  exact congrArg Except.ok (window_append pre mid post rfl rfl)

namespace BackedStream

variable {s : BackedStream}

theorem peek_cut (pre mid post : List UInt8) {offset count : ℤ}
    (hs : s.buffer = pre ++ mid ++ post) (hoffset : offset = pre.length)
    (hcount : count = mid.length) : s.peek offset count = .ok mid :=
  readArray_cut pre mid post hs hoffset hcount

theorem poke_cut (pre old new post : List UInt8) {offset : ℤ}
    (hs : s.buffer = pre ++ old ++ post) (hoffset : offset = pre.length)
    (hlen : old.length = new.length) :
    ∃ s', s.poke offset new = .ok s' ∧ s'.buffer = pre ++ new ++ post ∧
      s'.length = s.length ∧ s'.position = s.position := by
  have hin : 0 ≤ offset ∧ offset + new.length ≤ s.buffer.length := by
    rw [hs, hoffset]
    simp only [List.length_append]
    omega
  have hbuffer : overwrite s.buffer offset.toNat new = pre ++ new ++ post := by
    rw [hs, hoffset, Int.toNat_natCast, overwrite_append pre old new post rfl hlen]
  rw [poke, dif_pos hin]
  exact ⟨_, rfl, hbuffer, rfl, rfl⟩

/-- Writing at a position inside the stream keeps what is before it. -/
theorem write_cut (grow : ℕ → ℕ → ℕ) (pre rest : List UInt8) (hs : s.buffer = pre ++ rest)
    (hpos : s.position = pre.length) (hin : s.position ≤ s.length) (bytes : List UInt8) :
    ∃ rest', (s.write grow bytes).buffer = pre ++ bytes ++ rest' ∧
      (s.write grow bytes).position = pre.length + bytes.length ∧
      (s.write grow bytes).position ≤ (s.write grow bytes).length := by
  have hpre : (s.ensureCapacity grow (s.position + bytes.length)).take s.position = pre := by
    unfold ensureCapacity
    split_ifs
    · rw [List.take_append_of_le_length (by simp [hin, hin.trans s.length_le]),
        List.take_take, Nat.min_eq_left hin, hs, hpos, List.take_left]
    · rw [hs, hpos, List.take_left]
  have hbuffer : (s.write grow bytes).buffer =
      overwrite (s.ensureCapacity grow (s.position + bytes.length)) s.position bytes := by
    simp only [write, Nat.sub_eq_zero_of_le hin, List.replicate_zero, List.append_nil,
      Nat.max_eq_right hin, List.take_append_drop]
  rw [hbuffer, overwrite, hpre]
  refine ⟨_, rfl, ?_, Nat.le_max_right _ _⟩
  change s.position + bytes.length = _
  rw [hpos]

@[simp] theorem seek_buffer (n : ℕ) : (s.seek n).buffer = s.buffer := rfl

@[simp] theorem seek_position (n : ℕ) : (s.seek n).position = n := rfl

theorem write_front (grow : ℕ → ℕ → ℕ) (bytes : List UInt8) :
    ∃ rest, ((s.seek 0).write grow bytes).buffer = bytes ++ rest := by
  obtain ⟨rest, hbuffer, -⟩ := write_cut (s := s.seek 0) grow [] s.buffer rfl rfl
    (Nat.zero_le _) bytes
  exact ⟨rest, by simpa using hbuffer⟩

end BackedStream

/-! ## Frames in a stream -/

def header (n : ℕ) (topic : UInt32) : List UInt8 := fieldBytes n ++ fieldBytes topic.toNat

@[simp] theorem length_header (n : ℕ) (topic : UInt32) : (header n topic).length = 8 := rfl

/-- The array has a header with the length `n` behind `pre`, and a body behind
the header. -/
def Framed (s : BackedStream) (pre : List UInt8) (n : ℕ) (topic : UInt32) (body : List UInt8) :
    Prop :=
  ∃ rest, s.buffer = pre ++ header n topic ++ body ++ rest

/-- The stream has been written up to the end of the frame. -/
structure Filling (s : BackedStream) (pre : List UInt8) (n : ℕ) (topic : UInt32)
    (body : List UInt8) : Prop where
  framed : Framed s pre n topic body
  position : s.position = pre.length + 8 + body.length
  inside : s.position ≤ s.length

section

variable {s : BackedStream} {pre body : List UInt8} {n : ℕ} {topic : UInt32}

theorem Framed.getMessageLength_eq (h : Framed s pre n topic body) {start : ℤ}
    (hstart : start = pre.length) : getMessageLength s start = .ok (n % 2 ^ 32) := by
  obtain ⟨rest, hs⟩ := h
  have hpeek : s.peek start 4 = .ok (fieldBytes n) :=
    BackedStream.peek_cut pre (fieldBytes n) (fieldBytes topic.toNat ++ body ++ rest)
      (by rw [hs, header]; simp) hstart rfl
  have hvalue := fieldValue_fieldBytes [] n [] (Eq.refl 0)
  rw [List.nil_append, List.append_nil] at hvalue
  rw [getMessageLength, getField, hpeek]
  exact congrArg Except.ok hvalue

theorem Framed.setMessageLength_eq (h : Framed s pre n topic body) {start : ℤ}
    (hstart : start = pre.length) (n' : ℕ) :
    ∃ s', setMessageLength s start n' = .ok s' ∧ Framed s' pre n' topic body ∧
      s'.length = s.length ∧ s'.position = s.position := by
  obtain ⟨rest, hs⟩ := h
  obtain ⟨s', hpoke, hbuffer, hlength, hposition⟩ := BackedStream.poke_cut pre (fieldBytes n)
    (fieldBytes n') (fieldBytes topic.toNat ++ body ++ rest) (by rw [hs, header]; simp) hstart rfl
  exact ⟨s', hpoke, ⟨rest, by rw [hbuffer, header]; simp⟩, hlength, hposition⟩

theorem Filling.setMessageLength_eq (h : Filling s pre n topic body) {start : ℤ}
    (hstart : start = pre.length) (n' : ℕ) :
    ∃ s', setMessageLength s start n' = .ok s' ∧ Filling s' pre n' topic body := by
  obtain ⟨s', hset, hframed, hlength, hposition⟩ := h.framed.setMessageLength_eq hstart n'
  exact ⟨s', hset, hframed, by rw [hposition, h.position], by
    rw [hposition, hlength]; exact h.inside⟩

/-- A piece of the body that is read. -/
theorem Framed.peek_eq (h : Framed s pre n topic body) (before mid after : List UInt8)
    (hbody : body = before ++ mid ++ after) {offset count : ℤ}
    (hoffset : offset = pre.length + 8 + before.length) (hcount : count = mid.length) :
    s.peek offset count = .ok mid := by
  obtain ⟨rest, hs⟩ := h
  refine BackedStream.peek_cut (pre ++ header n topic ++ before) mid (after ++ rest)
    (by rw [hs, hbody]; simp) ?_ hcount
  simp only [List.length_append, length_header]
  omega

/-- The body is replaced from its front on; a shorter one leaves old bytes
behind it. -/
theorem Framed.poke_eq (h : Framed s pre n topic body) {body' : List UInt8}
    (hle : body'.length ≤ body.length) {offset : ℤ} (hoffset : offset = pre.length + 8) :
    ∃ s', s.poke offset body' = .ok s' ∧
      Framed s' pre n topic (body' ++ body.drop body'.length) ∧
      s'.length = s.length ∧ s'.position = s.position := by
  obtain ⟨rest, hs⟩ := h
  have hsplit : s.buffer = pre ++ header n topic ++ body.take body'.length ++
      (body.drop body'.length ++ rest) := by
    rw [hs, List.append_assoc _ (body.take _), ← List.append_assoc (body.take _),
      List.take_append_drop]
    simp
  have hfront : offset = (pre ++ header n topic).length := by
    simp only [List.length_append, length_header]
    omega
  obtain ⟨s', hpoke, hbuffer, hlength, hposition⟩ := BackedStream.poke_cut (pre ++ header n topic)
    (body.take body'.length) body' (body.drop body'.length ++ rest) hsplit hfront (by simp [hle])
  exact ⟨s', hpoke, ⟨rest, by rw [hbuffer]; simp⟩, hlength, hposition⟩

theorem Framed.shorten {body' rest : List UInt8} (h : Framed s pre n topic (body' ++ rest)) :
    Framed s pre n topic body' := by
  obtain ⟨post, hs⟩ := h
  exact ⟨rest ++ post, by rw [hs]; simp⟩

theorem Filling.write (h : Filling s pre n topic body) (grow : ℕ → ℕ → ℕ) (bytes : List UInt8) :
    Filling (s.write grow bytes) pre n topic (body ++ bytes) := by
  obtain ⟨rest, hs⟩ := h.framed
  obtain ⟨rest', hbuffer, hposition, hinside⟩ := BackedStream.write_cut grow
    (pre ++ header n topic ++ body) rest hs (by simp [h.position]; omega) h.inside bytes
  refine ⟨⟨rest', by rw [hbuffer]; simp⟩, ?_, hinside⟩
  rw [hposition]
  simp only [List.length_append, length_header]
  omega

end

/-! ## Sequence -/

section

variable {R : Runtime} {s : BackedStream} {pre body : List UInt8} {n : ℕ} {topic : UInt32}

theorem SequenceModifier.modifySend_eq (m : SequenceModifier) (h : Filling s pre n topic body)
    {start : ℤ} (hstart : start = pre.length) (hn : n = 8 + body.length)
    (hlt : n + 1 < 2 ^ 32) :
    ∃ s', m.modifySend R s start = .ok ({ m with sendSeq := m.sendSeq + 1 }, s') ∧
      Filling s' pre (n + 1) topic (body ++ [m.sendSeq]) := by
  obtain ⟨s', hset, hfilling⟩ := (h.write R.grow [m.sendSeq]).setMessageLength_eq hstart
    ((n + 1) % 2 ^ 32)
  rw [Nat.mod_eq_of_lt hlt] at hfilling
  refine ⟨s', ?_, hfilling⟩
  rw [SequenceModifier.modifySend, h.framed.getMessageLength_eq hstart, Nat.mod_eq_of_lt (by omega)]
  change (setMessageLength _ start ((n + 1) % 2 ^ 32) >>= _) = _
  rw [hset]
  rfl

theorem SequenceModifier.modifyRecv_eq (m : SequenceModifier)
    (h : Framed s pre n topic (body ++ [m.recvSeq])) {start : ℤ} (hstart : start = pre.length)
    (hn : n = 8 + body.length + 1) (hlt : n < 2 ^ 32) :
    ∃ s', m.modifyRecv s start = .ok (.success, { m with recvSeq := m.recvSeq + 1 }, s') ∧
      Framed s' pre (8 + body.length) topic body ∧ s'.length = s.length ∧
      s'.position = s.position := by
  obtain ⟨s', hset, hframed, hlength, hposition⟩ := h.setMessageLength_eq hstart
    ((n + 2 ^ 32 - 1) % 2 ^ 32)
  have hn' : (n + 2 ^ 32 - 1) % 2 ^ 32 = 8 + body.length := by omega
  rw [hn'] at hframed
  refine ⟨s', ?_, hframed.shorten, hlength, hposition⟩
  have hpeek : s.peek (start + (n : ℤ) - 1) 1 = .ok [m.recvSeq] :=
    h.peek_eq body [m.recvSeq] [] (by simp) (by omega) rfl
  rw [SequenceModifier.modifyRecv, h.getMessageLength_eq hstart, Nat.mod_eq_of_lt hlt]
  change (s.peek (start + (n : ℤ) - 1) 1 >>= _) = _
  rw [hpeek]
  change (if [m.recvSeq] ≠ [m.recvSeq] then _ else _) = _
  rw [if_neg (by simp), hset]
  rfl

/-! ## Checksum -/

/-- The body with the first bytes of its hash behind it, unless it is empty. -/
def ChecksumModifier.wrap (R : Runtime) (body : List UInt8) : List UInt8 :=
  if body = [] then [] else body ++ (computeHash R body).take 4

theorem ChecksumModifier.length_take_computeHash (R : Runtime) (bytes : List UInt8) :
    ((computeHash R bytes).take 4).length = 4 := by
  simp [computeHash, (R.sha1 bytes).2]

theorem ChecksumModifier.modifySend_eq (h : Filling s pre n topic body) {start : ℤ}
    (hstart : start = pre.length) (hn : n = 8 + body.length) (hlt : n + 4 < 2 ^ 32) :
    ∃ s', ChecksumModifier.modifySend R s start = .ok s' ∧
      Filling s' pre (8 + (wrap R body).length) topic (wrap R body) := by
  have hlen : getMessageLength s start = .ok n := by
    rw [h.framed.getMessageLength_eq hstart, Nat.mod_eq_of_lt (by omega)]
  rw [ChecksumModifier.modifySend, hlen]
  by_cases hbody : body = []
  · subst hbody
    refine ⟨s, ?_, by simpa [wrap, hn] using h⟩
    change (if (n : ℤ) = headerSize then _ else _) = _
    rw [if_pos (by simp [hn, headerSize, lengthFieldSize, topicFieldSize])]
    rfl
  · have hwrap : wrap R body = body ++ (computeHash R body).take 4 := by simp [wrap, hbody]
    have hne : (n : ℤ) ≠ headerSize := by
      have hpos := List.length_pos_iff.mpr hbody
      simp only [headerSize, lengthFieldSize, topicFieldSize]
      omega
    have hpeek : s.peek (start + headerSize) ((n : ℤ) - headerSize) = .ok body :=
      h.framed.peek_eq [] body [] (by simp)
        (by simp only [headerSize, lengthFieldSize, topicFieldSize, List.length_nil]; omega)
        (by simp only [headerSize, lengthFieldSize, topicFieldSize]; omega)
    obtain ⟨s', hset, hfilling⟩ :=
      (h.write R.grow ((computeHash R body).take 4)).setMessageLength_eq
      hstart ((n + 4) % 2 ^ 32)
    refine ⟨s', ?_, ?_⟩
    · change (if (n : ℤ) = headerSize then _ else _) = _
      rw [if_neg hne, hpeek]
      exact hset
    · rw [hwrap, List.length_append, length_take_computeHash]
      rwa [Nat.mod_eq_of_lt hlt, hn, Nat.add_assoc] at hfilling

theorem ChecksumModifier.equalAt_eq (h : Framed s pre n topic body) (before mid after : List UInt8)
    (hbody : body = before ++ mid ++ after) {index : ℤ}
    (hindex : index = pre.length + 8 + before.length) : equalAt s index mid = .ok true := by
  induction mid generalizing before index with
  | nil => rfl
  | cons b bs ih =>
      have hpeek : s.peek index 1 = .ok [b] :=
        h.peek_eq before [b] (bs ++ after) (by simp [hbody]) hindex rfl
      rw [equalAt, hpeek]
      change (if [b] = [b] then _ else _) = _
      rw [if_pos rfl]
      exact ih (before ++ [b]) (by simp [hbody]) (by simp [hindex]; omega)

theorem ChecksumModifier.modifyRecv_eq (h : Framed s pre n topic (wrap R body)) {start : ℤ}
    (hstart : start = pre.length) (hn : n = 8 + (wrap R body).length) (hlt : n < 2 ^ 32) :
    ∃ s', ChecksumModifier.modifyRecv R s start = .ok (.success, s') ∧
      Framed s' pre (8 + body.length) topic body ∧ s'.length = s.length ∧
      s'.position = s.position := by
  have hlen : getMessageLength s start = .ok n := by
    rw [h.getMessageLength_eq hstart, Nat.mod_eq_of_lt hlt]
  rw [ChecksumModifier.modifyRecv, hlen]
  by_cases hbody : body = []
  · subst hbody
    refine ⟨s, ?_, by simpa [wrap, hn] using h, rfl, rfl⟩
    change (if (n : ℤ) = headerSize then _ else _) = _
    rw [if_pos (by simp [hn, wrap, headerSize, lengthFieldSize, topicFieldSize])]
    rfl
  · have hwrap : wrap R body = body ++ (computeHash R body).take 4 := by simp [wrap, hbody]
    have hn' : n = 8 + body.length + 4 := by
      rw [hn, hwrap, List.length_append, length_take_computeHash, Nat.add_assoc]
    have hne : (n : ℤ) ≠ headerSize := by
      simp only [headerSize, lengthFieldSize, topicFieldSize]
      omega
    have hpeek : s.peek (start + headerSize) ((n : ℤ) - headerSize - 4) = .ok body :=
      h.peek_eq [] body _ hwrap
        (by simp only [headerSize, lengthFieldSize, topicFieldSize, List.length_nil]; omega)
        (by simp only [headerSize, lengthFieldSize, topicFieldSize]; omega)
    have hequal : equalAt s (start + ((n : ℤ) - 4)) ((computeHash R body).take 4) = .ok true :=
      ChecksumModifier.equalAt_eq h body _ [] (by simp [hwrap]) (by omega)
    obtain ⟨s', hset, hframed, hlength, hposition⟩ := h.setMessageLength_eq hstart (n - 4)
    refine ⟨s', ?_, ?_, hlength, hposition⟩
    · change (if (n : ℤ) = headerSize then _ else _) = _
      rw [if_neg hne, hpeek]
      change (equalAt s (start + ((n : ℤ) - 4)) _ >>= _) = _
      rw [hequal]
      change (setMessageLength s start (n - 4) >>= _) = _
      rw [hset]
      rfl
    · rw [hwrap, show n - 4 = 8 + body.length by omega] at hframed
      exact hframed.shorten

/-! ## Cipher -/

/-- The documented behaviour of the runtime that the modifiers rely on. -/
structure Runtime.Lawful (R : Runtime) : Prop where
  encrypt_length : ∀ k iv x, (R.encrypt k iv x).length =
    x.length + (blockSize - x.length % blockSize)
  decrypt_encrypt : ∀ k iv x, R.decrypt k iv (R.encrypt k iv x) = some x

/-- The work stream whose array is hashed for a message. -/
def Cipher.chained (R : Runtime) (c : Cipher) (plain : List UInt8) : BackedStream :=
  ((c.workStream.seek 0).write R.grow (plain.take 64)).write R.grow
    (c.hashStream.buffer.take c.hashStream.length)

/-- `count % CipherKeyChangeInterval` has a value. -/
def Cipher.Divides (interval : Int32) (c : Cipher) : Prop :=
  ¬ (interval = 0 ∨ interval = -1 ∧ c.count = Int32.minValue)

/-- One direction after a message with the given plaintext. -/
def Cipher.advance (R : Runtime) (interval : Int32) (c : Cipher) (plain : List UInt8) : Cipher :=
  let hashValue := R.sha1 (c.chained R plain).buffer
  let tv : Block := ⟨hashValue.1.take blockSize, by simp [hashValue.2, blockSize]⟩
  { key := if c.count % interval = 0 then tv else c.key
    iv := tv
    hashStream := (c.hashStream.seek 0).write R.grow hashValue.1
    workStream := c.chained R plain
    count := c.count + 1 }

theorem Cipher.updateHash_complete {c : Cipher} {interval : Int32} (hdiv : c.Divides interval)
    {data : List UInt8} {offset length : ℤ} {plain : List UInt8}
    (hread : readArray data offset (min length 64) = .ok (plain.take 64)) :
    ∃ hashed, c.updateHash R data offset length = .ok hashed ∧
      hashed.complete interval = .ok (c.advance R interval plain) := by
  set hashValue := R.sha1 (c.chained R plain).buffer with hhash
  obtain ⟨rest, hfront⟩ := BackedStream.write_front (s := c.hashStream) R.grow hashValue.1
  refine ⟨{ c with
    workStream := c.chained R plain
    hashStream := (c.hashStream.seek 0).write R.grow hashValue.1 }, ?_, ?_⟩
  · rw [Cipher.updateHash, hread]
    rfl
  · have hlen : blockSize ≤ ((c.hashStream.seek 0).write R.grow hashValue.1).buffer.length := by
      rw [hfront, List.length_append, hashValue.2, blockSize]
      omega
    have htake : ((c.hashStream.seek 0).write R.grow hashValue.1).buffer.take blockSize =
        hashValue.1.take blockSize := by
      rw [hfront, List.take_append_of_le_length (by rw [hashValue.2]; decide)]
    rw [Cipher.complete, if_neg hdiv, dif_pos hlen]
    simp only [htake, Cipher.advance, ← hhash]

theorem CipherModifier.modifySend_eq {S : Settings} (hR : R.Lawful) {m : CipherModifier}
    (hdiv : m.sender.Divides S.cipherKeyChangeInterval) (h : Filling s pre n topic body)
    {start : ℤ} (hstart : start = pre.length) (hn : n = 8 + body.length)
    (hlt : 8 + (R.encrypt m.sender.key m.sender.iv body).length < 2 ^ 32) :
    ∃ s', m.modifySend R S s start =
        .ok ({ m with sender := m.sender.advance R S.cipherKeyChangeInterval body }, s') ∧
      Filling s' pre (8 + (R.encrypt m.sender.key m.sender.iv body).length) topic
        (R.encrypt m.sender.key m.sender.iv body) := by
  set text := R.encrypt m.sender.key m.sender.iv body with htext
  have htextLen : text.length = body.length + (blockSize - body.length % blockSize) :=
    hR.encrypt_length _ _ _
  have hmod : body.length % blockSize < blockSize := Nat.mod_lt _ (by decide)
  have hhead : (headerSize : ℤ) = 8 := rfl
  have hlen : getMessageLength s start = .ok n := by
    rw [h.framed.getMessageLength_eq hstart, Nat.mod_eq_of_lt (by omega)]
  -- the padding makes room for the text
  have hpadSize : (blockSize : ℤ) - ((n : ℤ) - headerSize).tmod blockSize =
      (blockSize - body.length % blockSize : ℕ) := by
    rw [hhead, hn, show ((8 + body.length : ℕ) : ℤ) - 8 = (body.length : ℤ) by omega,
      ← Int.ofNat_tmod]
    omega
  set pad : List UInt8 := List.replicate (blockSize - body.length % blockSize) 0xFF with hpad
  have hpadRead : readArray (List.replicate 16 0xFF) 0
      ((blockSize : ℤ) - ((n : ℤ) - headerSize).tmod blockSize) = .ok pad := by
    refine readArray_cut [] pad (List.replicate (body.length % blockSize) 0xFF) ?_ rfl ?_
    · rw [List.nil_append, hpad, List.replicate_append_replicate]
      congr 1
      simp only [blockSize] at hmod ⊢
      omega
    · rw [hpadSize, hpad, List.length_replicate]
  have hfilled := h.write R.grow pad
  have hpadLen : pad.length = blockSize - body.length % blockSize := by simp [hpad]
  have hplain : (s.write R.grow pad).peek (start + headerSize) ((n : ℤ) - headerSize) =
      .ok body :=
    hfilled.framed.peek_eq [] body pad (by simp) (by simp [hhead, hstart]) (by omega)
  have hread : readArray (s.write R.grow pad).buffer (start + headerSize)
      (min ((n : ℤ) - headerSize) 64) = .ok (body.take 64) := by
    refine hfilled.framed.peek_eq [] (body.take 64) (body.drop 64 ++ pad) ?_
      (by simp [hhead, hstart]) ?_
    · rw [List.nil_append, ← List.append_assoc, List.take_append_drop]
    · rw [hhead, hn, List.length_take]
      omega
  obtain ⟨hashed, hupdate, hcomplete⟩ := Cipher.updateHash_complete hdiv hread
  obtain ⟨s₂, hpoke, hframed₂, hlength₂, hposition₂⟩ := hfilled.framed.poke_eq
    (show text.length ≤ (body ++ pad).length by rw [List.length_append, hpadLen, htextLen])
    (show start + headerSize = _ by omega)
  have hnil : (body ++ pad).drop text.length = [] := by
    apply List.drop_of_length_le
    rw [List.length_append, hpadLen, htextLen]
  rw [hnil, List.append_nil] at hframed₂
  have hfilled₂ : Filling s₂ pre n topic text := by
    refine ⟨hframed₂, ?_, ?_⟩
    · rw [hposition₂, hfilled.position, List.length_append, hpadLen, htextLen]
    · rw [hposition₂, hlength₂]
      exact hfilled.inside
  obtain ⟨s₃, hset, hfilled₃⟩ := hfilled₂.setMessageLength_eq hstart
    ((text.length + headerSize.toNat) % 2 ^ 32)
  have hsize : (text.length + headerSize.toNat) % 2 ^ 32 = 8 + text.length := by
    rw [show headerSize.toNat = 8 from rfl, Nat.add_comm, Nat.mod_eq_of_lt hlt]
  rw [hsize] at hset hfilled₃
  refine ⟨s₃, ?_, hfilled₃⟩
  rw [CipherModifier.modifySend, hlen]
  change (readArray (List.replicate 16 0xFF) 0
    ((blockSize : ℤ) - ((n : ℤ) - headerSize).tmod blockSize) >>= _) = _
  rw [hpadRead]
  change (m.sender.updateHash R (s.write R.grow pad).buffer (start + headerSize)
    ((n : ℤ) - headerSize) >>= _) = _
  rw [hupdate]
  change ((s.write R.grow pad).peek (start + headerSize) ((n : ℤ) - headerSize) >>= _) = _
  rw [hplain]
  change ((s.write R.grow pad).poke (start + headerSize) text >>= _) = _
  rw [hpoke]
  change (hashed.complete S.cipherKeyChangeInterval >>= _) = _
  rw [hcomplete]
  change (setMessageLength s₂ start ((text.length + headerSize.toNat) % 2 ^ 32) >>= _) = _
  rw [hsize, hset]
  rfl

theorem CipherModifier.modifyRecv_eq {S : Settings} {m : CipherModifier} {plain text : List UInt8}
    (hdiv : m.recevier.Divides S.cipherKeyChangeInterval) (h : Framed s pre n topic text)
    {start : ℤ} (hstart : start = pre.length) (hn : n = 8 + text.length) (hlt : n < 2 ^ 32)
    (hplain : R.decrypt m.recevier.key m.recevier.iv text = some plain)
    (hle : plain.length ≤ text.length) :
    ∃ s', m.modifyRecv R S s start =
        .ok ({ m with recevier := m.recevier.advance R S.cipherKeyChangeInterval plain }, s') ∧
      Framed s' pre (8 + plain.length) topic plain ∧ s'.length = s.length ∧
      s'.position = s.position := by
  have hhead : (headerSize : ℤ) = 8 := rfl
  have hlen : getMessageLength s start = .ok n := by
    rw [h.getMessageLength_eq hstart, Nat.mod_eq_of_lt hlt]
  have htext : s.peek (start + headerSize) ((n : ℤ) - headerSize) = .ok text :=
    h.peek_eq [] text [] (by simp) (by simp [hhead, hstart]) (by omega)
  obtain ⟨s₂, hpoke, hframed₂, hlength₂, hposition₂⟩ := h.poke_eq hle
    (show start + headerSize = _ by omega)
  have hread : readArray plain 0 (min (plain.length : ℤ) 64) = .ok (plain.take 64) := by
    refine readArray_cut [] (plain.take 64) (plain.drop 64) ?_ rfl ?_
    · rw [List.nil_append, List.take_append_drop]
    · rw [List.length_take]
      omega
  obtain ⟨hashed, hupdate, hcomplete⟩ := Cipher.updateHash_complete hdiv hread
  obtain ⟨s₃, hset, hframed₃, hlength₃, hposition₃⟩ := hframed₂.setMessageLength_eq hstart
    ((plain.length + headerSize.toNat) % 2 ^ 32)
  have hsize : (plain.length + headerSize.toNat) % 2 ^ 32 = 8 + plain.length := by
    rw [show headerSize.toNat = 8 from rfl, Nat.add_comm, Nat.mod_eq_of_lt (by omega)]
  rw [hsize] at hset hframed₃
  refine ⟨s₃, ?_, hframed₃.shorten, hlength₃.trans hlength₂, hposition₃.trans hposition₂⟩
  rw [CipherModifier.modifyRecv, hlen]
  change (s.peek (start + headerSize) ((n : ℤ) - headerSize) >>= _) = _
  have hok : ∀ f : List UInt8 → Call (CipherModifier × BackedStream),
      (.ok text : Call (List UInt8)) >>= f = f text := fun _ ↦ rfl
  rw [htext, hok, hplain]
  change (s.poke (start + headerSize) plain >>= _) = _
  rw [hpoke]
  change (m.recevier.updateHash R plain 0 plain.length >>= _) = _
  rw [hupdate]
  change (hashed.complete S.cipherKeyChangeInterval >>= _) = _
  rw [hcomplete]
  change (setMessageLength s₂ start ((plain.length + headerSize.toNat) % 2 ^ 32) >>= _) = _
  rw [hsize, hset]
  rfl

end

end WiseKernel.Client
