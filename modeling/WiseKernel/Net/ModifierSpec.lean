import WiseKernel.Net.Modifier

/-!
# What the modifiers do to a body

Each modifier, stated on the body of a frame alone: the sequencer appends a
counter, the checksum appends a hash of a non-empty body, the cipher replaces
a non-empty body by its padded encryption and moves the key schedule on.  The
buffer code is shown to compute exactly these functions wherever the frame
stands.
-/

namespace WiseKernel.Net

open WiseKernel.Lib

/-- The documented behaviour of the library that the modifiers rely on:
lengths, and decryption undoing encryption under the same key and nonce. -/
structure Botan.Lawful (B : Botan) : Prop where
  crc32_available : B.crc32.isSome = true
  encrypt_length : ∀ k n x, x.length % blockSize = 0 →
    (B.encryption.process k n x).length = x.length
  encrypt_finish : ∀ k n x last, x.length % blockSize = 0 → last.length < blockSize →
    ∃ c, B.encryption.finish k n x last = some c ∧ c.length = blockSize
  decrypt_length : ∀ k n x, x.length % blockSize = 0 →
    (B.decryption.process k n x).length = x.length
  decrypt_finish_length : ∀ k n x last plain, last.length = blockSize →
    B.decryption.finish k n x last = some plain → plain.length ≤ blockSize
  decrypt_process : ∀ k n x, x.length % blockSize = 0 →
    B.decryption.process k n (B.encryption.process k n x) = x
  decrypt_finish : ∀ k n x last c, x.length % blockSize = 0 → last.length < blockSize →
    B.encryption.finish k n x last = some c →
      B.decryption.finish k n (B.encryption.process k n x) c = some last

/-! ## Running the primitives on a buffer cut in pieces -/

@[simp] theorem subSize_of_le {a b : ℕ} (h : b ≤ a) : subSize a b = a - b := by
  simp [subSize, h]

@[simp] theorem sub_out (a b : ℕ) : (sub a b).out = .ok (subSize a b) := by
  simp [sub, Traced.bind_of_ok (Traced.emit_out _)]

theorem sub_of_le {a b : ℕ} (h : b ≤ a) : (sub a b).out = .ok (a - b) := by
  simp [h]

theorem readAt_of_le {bytes : List UInt8} {pos len : ℕ} (h : pos + len ≤ bytes.length) :
    (readAt bytes pos len).out = .ok (window bytes pos len) := by
  simp [readAt, Traced.bind_of_ok (Traced.emit_out _), h]

theorem readAt_of_lt {bytes : List UInt8} {pos len : ℕ} (h : bytes.length < pos + len) :
    (readAt bytes pos len).out = .error .undefined := by
  simp [readAt, Traced.bind_of_ok (Traced.emit_out _), Nat.not_le.mpr h]

theorem readAt_cut (pre mid post : List UInt8) {bytes : List UInt8} {pos len : ℕ}
    (hb : bytes = pre ++ mid ++ post) (hpos : pos = pre.length) (hlen : len = mid.length) :
    (readAt bytes pos len).out = .ok mid := by
  subst hb
  rw [readAt_of_le, window_append pre mid post hpos hlen]
  simp [hpos, hlen]

theorem writeAt_of_le {bytes xs : List UInt8} {pos : ℕ} (h : pos + xs.length ≤ bytes.length) :
    (writeAt bytes pos xs).out = .ok (overwrite bytes pos xs) := by
  simp [writeAt, Traced.bind_of_ok (Traced.emit_out _), h]

theorem writeAt_cut (pre old new post : List UInt8) {bytes after : List UInt8} {pos : ℕ}
    (hb : bytes = pre ++ old ++ post) (ha : after = pre ++ new ++ post)
    (hpos : pos = pre.length) (hlen : old.length = new.length) :
    (writeAt bytes pos new).out = .ok after := by
  subst hb ha
  rw [writeAt_of_le, overwrite_append pre old new post hpos hlen]
  simp [hpos, hlen]

/-- A header whose length field `update_length_field` has stored. -/
def relabel (header : List UInt8) (n : ℕ) : List UInt8 :=
  [UInt8.ofNat (n &&& 0xFF), UInt8.ofNat (n >>> 8 &&& 0xFF), UInt8.ofNat (n >>> 8 &&& 0xFF),
    UInt8.ofNat (n >>> 8 &&& 0xFF)] ++ header.drop 4

theorem length_relabel {header : List UInt8} (h : header.length = 8) (n : ℕ) :
    (relabel header n).length = 8 := by
  simp [relabel, h]

@[simp] theorem drop_relabel (header : List UInt8) (n : ℕ) :
    (relabel header n).drop 4 = header.drop 4 := by
  simp [relabel]

/-- Updating the length field of a frame at the front keeps what follows the
field. -/
theorem updateLengthField_front {header : List UInt8} (h : header.length = 8)
    (rest : List UInt8) (n : ℕ) :
    (updateLengthField (header ++ rest) 0 n).out = .ok (relabel header n ++ rest) := by
  refine writeAt_cut [] (header.take 4) _ (header.drop 4 ++ rest) ?_ (by simp [relabel]) rfl
    (by simp [h])
  rw [List.nil_append, ← List.append_assoc, List.take_append_drop]

/-! ## Sequencer -/

theorem Sequencer.onSend_front (s : Sequencer) {header : List UInt8}
    (h : header.length = 8) (body : List UInt8) :
    (s.onSend (header ++ body) 0 (header ++ body).length).out =
      .ok ({ s with sendSeq := s.sendSeq + 1 },
        relabel header ((header ++ body).length + sequenceSize) ++ (body ++ [s.sendSeq])) := by
  have hwrite : (writeAt (header ++ body ++ [0x61]) (0 + (header ++ body).length)
      [s.sendSeq]).out = .ok (header ++ (body ++ [s.sendSeq])) :=
    writeAt_cut (header ++ body) [0x61] _ [] (by simp) (by simp) (by simp) rfl
  rw [Sequencer.onSend, Traced.bind_of_ok hwrite,
    Traced.bind_of_ok (updateLengthField_front h (body ++ [s.sendSeq]) _)]
  rfl

theorem Sequencer.onRecv_append (s : Sequencer) (pre header body post : List UInt8)
    (seq : UInt8) {msgPos msgLen : ℕ} (hpos : msgPos = pre.length)
    (hlen : msgLen = header.length + body.length + 1) :
    (s.onRecv (pre ++ header ++ (body ++ [seq]) ++ post) msgPos msgLen).out =
      .ok (if seq = s.recvSeq
        then (.ok, { s with recvSeq := s.recvSeq + 1 }, header.length + body.length)
        else (.fail .failInvalidMessageSequence, { s with recvSeq := s.recvSeq + 1 },
          msgLen)) := by
  have hread : (readAt (pre ++ header ++ (body ++ [seq]) ++ post)
      (msgPos + msgLen - sequenceSize) sequenceSize).out = .ok [seq] :=
    readAt_cut (pre ++ header ++ body) [seq] post (by simp)
      (by simp only [List.length_append, sequenceSize]; omega) rfl
  rw [Sequencer.onRecv, Traced.bind_of_ok (sub_of_le (by simp [sequenceSize]; omega)),
    Traced.bind_of_ok hread]
  by_cases hseq : seq = s.recvSeq
  · simp only [hseq, if_true]
    rw [Traced.bind_of_ok (sub_of_le (by simp [sequenceSize, hlen]))]
    simp [hlen, sequenceSize]
  · simp [hseq]

/-! ## Checksum -/

def Checksum.wrap (hash : List UInt8 → { l : List UInt8 // l.length = 4 })
    (body : List UInt8) : List UInt8 :=
  if body = [] then [] else body ++ (hash body).1

theorem Checksum.onSend_nil (B : Botan) {header : List UInt8} (h : header.length = 8) :
    (Checksum.onSend B 8 header 0 header.length).out = .ok (.ok, header) := by
  simp [Checksum.onSend, h]

theorem Checksum.onSend_front {B : Botan} {hash} (hB : B.crc32 = some hash)
    {header body : List UInt8} (h : header.length = 8) (hbody : body ≠ []) :
    (Checksum.onSend B 8 (header ++ body) 0 (header ++ body).length).out =
      .ok (.ok, relabel header ((header ++ body).length + checksumSize) ++
        Checksum.wrap hash body) := by
  have hne : (header ++ body).length ≠ 8 := by
    simpa [h] using hbody
  have hread : (readAt (header ++ body) (0 + 8) ((header ++ body).length - 8)).out =
      .ok body :=
    readAt_cut header body [] (by simp) (by simp [h]) (by simp [h])
  have hwrite : (writeAt (header ++ body ++ [0x61, 0x62, 0x63, 0x64])
      (0 + (header ++ body).length) (hash body).1).out =
        .ok (header ++ (body ++ (hash body).1)) :=
    writeAt_cut (header ++ body) [0x61, 0x62, 0x63, 0x64] _ [] (by simp) (by simp) (by simp)
      (by simp [(hash body).2])
  simp only [Checksum.onSend, hne, if_false, hB]
  rw [Traced.bind_of_ok (sub_of_le (by simp [h])), Traced.bind_of_ok hread,
    Traced.bind_of_ok hwrite,
    Traced.bind_of_ok (updateLengthField_front h (body ++ (hash body).1) _)]
  simp [Checksum.wrap, hbody]

theorem Checksum.onRecv_nil (B : Botan) (bytes : List UInt8) (msgOffset : ℕ) :
    (Checksum.onRecv B 8 bytes msgOffset 8).out = .ok (.ok, 8) := by
  simp [Checksum.onRecv]

/-- A body of at least four bytes: the check compares its last four with the
hash of the rest. -/
theorem Checksum.onRecv_append {B : Botan} {hash} (hB : B.crc32 = some hash)
    (pre header body crc post : List UInt8) {msgOffset msgLen : ℕ}
    (h : header.length = 8) (hcrc : crc.length = 4) (hpos : msgOffset = pre.length)
    (hlen : msgLen = 8 + body.length + 4) :
    (Checksum.onRecv B 8 (pre ++ header ++ (body ++ crc) ++ post) msgOffset msgLen).out =
      .ok (if crc = (hash body).1 then (.ok, 8 + body.length)
        else (.fail .failIncorrectChecksum, msgLen)) := by
  have hbody : (readAt (pre ++ header ++ (body ++ crc) ++ post) (msgOffset + 8)
      (msgLen - checksumSize - 8)).out = .ok body :=
    readAt_cut (pre ++ header) body (crc ++ post) (by simp) (by simp [hpos, h])
      (by simp [hlen, checksumSize])
  have hread : (readAt (pre ++ header ++ (body ++ crc) ++ post)
      (msgOffset + msgLen - checksumSize) checksumSize).out = .ok crc :=
    readAt_cut (pre ++ header ++ body) crc post (by simp)
      (by simp [hpos, hlen, h, checksumSize]; omega) (by simp [hcrc, checksumSize])
  simp only [Checksum.onRecv, show msgLen ≠ 8 by omega, if_false, hB]
  rw [Traced.bind_of_ok (sub_of_le (by simp [checksumSize]; omega)),
    Traced.bind_of_ok (sub_of_le (by simp [checksumSize]; omega)),
    Traced.bind_of_ok hbody,
    Traced.bind_of_ok (sub_of_le (by simp [checksumSize]; omega)),
    Traced.bind_of_ok hread]
  by_cases heq : crc = (hash body).1
  · simp only [heq, if_true]
    rw [Traced.bind_of_ok (sub_of_le (by simp [checksumSize]; omega))]
    simp [hlen, checksumSize]
  · simp [heq]

/-! ## Cipher -/

def CipherMode.blocks (mode : CipherMode) (c : CipherImpl) (x : List UInt8) : List UInt8 :=
  if x = [] then [] else mode.process c.key c.nonce x

/-- The encryption of a body: its whole blocks, then the padded rest. -/
def Cipher.encrypt (B : Botan) (c : CipherImpl) (body : List UInt8) : Option (List UInt8) :=
  let whole := body.take (body.length / blockSize * blockSize)
  let rest := body.drop (body.length / blockSize * blockSize)
  (B.encryption.finish c.key c.nonce whole rest).map (B.encryption.blocks c whole ++ ·)

/-- The decryption of a text of whole blocks, the last of which is unpadded. -/
def Cipher.decrypt (B : Botan) (c : CipherImpl) (text : List UInt8) : Option (List UInt8) :=
  let front := text.take (text.length - blockSize)
  let last := text.drop (text.length - blockSize)
  (B.decryption.finish c.key c.nonce front last).map (B.decryption.blocks c front ++ ·)

/-- The key schedule after one message with the given plaintext. -/
def CipherImpl.advance (B : Botan) (keyChangeInterval : ℕ) (c : CipherImpl)
    (plain : List UInt8) : CipherImpl :=
  let data := B.sha1 (plain.take 64 ++ c.data)
  let next : Block := ⟨data.1.take blockSize, by simp [data.2, blockSize]⟩
  { key := if c.count % keyChangeInterval = 0 then next else c.key
    nonce := next
    data := data.1
    count := (c.count + 1) % 2 ^ 64 }

/-- Chaining a plaintext and completing the message; a key change interval of
zero is a division by zero. -/
theorem CipherImpl.updateHash_complete (B : Botan) (interval : ℕ)
    (c : CipherImpl) (pre plain post : List UInt8) {bytes : List UInt8} {pos len : ℕ}
    (hb : bytes = pre ++ plain ++ post) (hpos : pos = pre.length)
    (hlen : len = plain.length) :
    ∃ hashed, (c.updateHash B bytes pos len).out = .ok hashed ∧
      (hashed.complete interval).out =
        if interval = 0 then .error .undefined else .ok (c.advance B interval plain) := by
  have hread : (readAt bytes pos (min len 64)).out = .ok (plain.take 64) := by
    refine readAt_cut pre (plain.take 64) (plain.drop 64 ++ post) ?_ hpos ?_
    · rw [hb, List.append_assoc, List.append_assoc, ← List.append_assoc (plain.take 64),
        List.take_append_drop]
    · simp [hlen, Nat.min_comm]
  refine ⟨{ c with data := (B.sha1 (plain.take 64 ++ c.data)).1 }, ?_, ?_⟩
  · rw [CipherImpl.updateHash, Traced.bind_of_ok hread]
    rfl
  · have hdata := (B.sha1 (plain.take 64 ++ c.data)).2
    by_cases hint : interval = 0
    · simp [CipherImpl.complete, hint]
    · simp [CipherImpl.complete, CipherImpl.advance, hint, hdata, blockSize]

theorem length_whole_blocks (body : List UInt8) :
    (body.take (body.length / blockSize * blockSize)).length % blockSize = 0 ∧
      (body.drop (body.length / blockSize * blockSize)).length = body.length % blockSize := by
  simp only [List.length_take, List.length_drop, blockSize]
  omega

theorem CipherMode.length_blocks {mode : CipherMode} {c : CipherImpl} {x : List UInt8}
    (h : (mode.process c.key c.nonce x).length = x.length) :
    (mode.blocks c x).length = x.length := by
  unfold CipherMode.blocks
  split_ifs with hx
  · simp [hx]
  · exact h

theorem CipherMode.process_eq_blocks {mode : CipherMode} {c : CipherImpl} {x : List UInt8}
    (h : (mode.process c.key c.nonce x).length = x.length) :
    mode.process c.key c.nonce x = mode.blocks c x := by
  unfold CipherMode.blocks
  split_ifs with hx
  · rw [hx, List.length_nil] at h
    rw [hx]
    exact List.length_eq_zero_iff.mp h
  · rfl

theorem Cipher.encrypt_isSome {B : Botan} (hB : B.Lawful) (c : CipherImpl)
    (body : List UInt8) :
    ∃ text, Cipher.encrypt B c body = some text ∧
      text.length = body.length + (blockSize - body.length % blockSize) := by
  obtain ⟨hwhole, hrest⟩ := length_whole_blocks body
  have hlt : body.length % blockSize < blockSize := Nat.mod_lt _ (by decide)
  obtain ⟨out, hout, hlen⟩ := hB.encrypt_finish c.key c.nonce _ _ hwhole (hrest ▸ hlt)
  refine ⟨_, by simp [Cipher.encrypt, hout]; rfl, ?_⟩
  rw [List.length_append, CipherMode.length_blocks (hB.encrypt_length _ _ _ hwhole), hlen,
    List.length_take]
  simp only [blockSize]
  omega

/-- Decryption undoes encryption under the same key and nonce. -/
theorem Cipher.decrypt_encrypt {B : Botan} (hB : B.Lawful) {s r : CipherImpl}
    (hkey : r.key = s.key) (hnonce : r.nonce = s.nonce) {body text : List UInt8}
    (h : Cipher.encrypt B s body = some text) : Cipher.decrypt B r text = some body := by
  obtain ⟨hwhole, hrest⟩ := length_whole_blocks body
  have hlt : body.length % blockSize < blockSize := Nat.mod_lt _ (by decide)
  obtain ⟨out, hout, hlen⟩ := hB.encrypt_finish s.key s.nonce _ _ hwhole (hrest ▸ hlt)
  set whole := body.take (body.length / blockSize * blockSize) with hw
  set rest := body.drop (body.length / blockSize * blockSize) with hr
  have htext : text = B.encryption.blocks s whole ++ out := by
    simpa [Cipher.encrypt, ← hw, ← hr, hout] using h.symm
  have hblocks := CipherMode.length_blocks (hB.encrypt_length s.key s.nonce whole hwhole)
  have hcut : text.length - blockSize = (B.encryption.blocks s whole).length := by
    rw [htext, List.length_append, hlen]
    omega
  have hfront : text.take (text.length - blockSize) = B.encryption.blocks s whole := by
    rw [hcut, htext, List.take_left]
  have hlast : text.drop (text.length - blockSize) = out := by
    rw [hcut, htext, List.drop_left]
  have hprocess := CipherMode.process_eq_blocks (hB.encrypt_length s.key s.nonce whole hwhole)
  have hfin := hB.decrypt_finish s.key s.nonce whole rest out hwhole (hrest ▸ hlt) hout
  have hplain : B.decryption.blocks r (B.encryption.blocks s whole) = whole := by
    by_cases hnil : B.encryption.blocks s whole = []
    · have hzero : whole = [] := by
        rw [hnil, List.length_nil] at hblocks
        exact List.length_eq_zero_iff.mp hblocks.symm
      simp [CipherMode.blocks, hzero]
    · rw [CipherMode.blocks, if_neg hnil, hkey, hnonce, ← hprocess]
      exact hB.decrypt_process s.key s.nonce whole hwhole
  rw [Cipher.decrypt, hfront, hlast, hkey, hnonce, ← hprocess, hfin, hprocess]
  rw [Option.map_some, hplain]
  exact congrArg some (List.take_append_drop _ _)

theorem Cipher.length_decrypt_le {B : Botan} (hB : B.Lawful) {c : CipherImpl}
    {text plain : List UInt8} (htext : text ≠ []) (hblock : text.length % blockSize = 0)
    (h : Cipher.decrypt B c text = some plain) : plain.length ≤ text.length := by
  obtain ⟨last, hlast, rfl⟩ := Option.map_eq_some_iff.mp h
  have hne : text.length ≠ 0 := fun h0 ↦ htext (List.length_eq_zero_iff.mp h0)
  have hge : blockSize ≤ text.length := by
    simp only [blockSize] at hblock ⊢
    omega
  have hfront : (text.take (text.length - blockSize)).length % blockSize = 0 := by
    simp only [List.length_take, blockSize] at hblock ⊢
    omega
  have hle := hB.decrypt_finish_length _ _ _ _ _ (by rw [List.length_drop]; omega) hlast
  rw [List.length_append, CipherMode.length_blocks (hB.decrypt_length _ _ _ hfront),
    List.length_take]
  omega

/-- In place, `process` replaces whole blocks by their image. -/
theorem Cipher.processInPlace_cut {mode : CipherMode} {c : CipherImpl}
    (pre x post : List UInt8) {bytes : List UInt8} {pos len : ℕ}
    (hb : bytes = pre ++ x ++ post) (hpos : pos = pre.length) (hlen : len = x.length)
    (hx : x.length % blockSize = 0)
    (hmode : (mode.process c.key c.nonce x).length = x.length) :
    (Cipher.processInPlace mode c bytes pos len).out =
      .ok (x, pre ++ mode.blocks c x ++ post) := by
  unfold Cipher.processInPlace CipherMode.blocks
  by_cases hnil : x = []
  · simp [hnil, hlen, hb]
  · have hne : len ≠ 0 := by
      rw [hlen]
      exact fun h0 ↦ hnil (List.length_eq_zero_iff.mp h0)
    have hmod : ¬ len % blockSize ≠ 0 := by simp [hlen, hx]
    rw [if_neg hne, if_neg hmod, if_neg hnil,
      Traced.bind_of_ok (readAt_cut pre x post hb hpos hlen),
      Traced.bind_of_ok (writeAt_cut pre x _ post hb rfl hpos hmode.symm)]
    rfl

/-- A non-empty body is replaced by its encryption; a key change interval of
zero ends the call. -/
theorem Cipher.onSend_front {B : Botan} (hB : B.Lawful) (interval : ℕ)
    (c : CipherImpl) {header body text : List UInt8} (h : header.length = 8)
    (hbody : body ≠ []) (htext : Cipher.encrypt B c body = some text) :
    (Cipher.onSend B interval 8 c (header ++ body) 0 (header ++ body).length).out =
      if interval = 0 then .error .undefined
      else .ok (c.advance B interval body,
        relabel header ((header ++ body).length + (blockSize - body.length % blockSize)) ++
          text) := by
  obtain ⟨hwhole, hrest⟩ := length_whole_blocks body
  have hlt : body.length % blockSize < blockSize := Nat.mod_lt _ (by decide)
  set whole := body.take (body.length / blockSize * blockSize) with hw
  set rest := body.drop (body.length / blockSize * blockSize) with hr
  have hsplit : whole ++ rest = body := List.take_append_drop _ _
  obtain ⟨out, hout, hlen⟩ := hB.encrypt_finish c.key c.nonce whole rest hwhole (hrest ▸ hlt)
  have htext' : text = B.encryption.blocks c whole ++ out := by
    simpa [Cipher.encrypt, ← hw, ← hr, hout] using htext.symm
  have hblocks := CipherMode.length_blocks (hB.encrypt_length c.key c.nonce whole hwhole)
  -- the frame behind the padding bytes, with its sizes in the code's terms
  have hlenBody : body.length = whole.length + body.length % blockSize := by
    rw [← hrest, ← List.length_append, hsplit]
  set pad := List.replicate (blockSize - body.length % blockSize) (0xFF : UInt8) with hpad
  have hpadLen : pad.length = blockSize - body.length % blockSize := by simp [hpad]
  have hframe : (header ++ body).length = 8 + body.length := by simp [h]
  have hsize : (header ++ body).length - 8 = body.length := by omega
  have hne : body.length ≠ 0 := fun h0 ↦ hbody (List.length_eq_zero_iff.mp h0)
  obtain ⟨hashed, hhash, hcomplete⟩ := CipherImpl.updateHash_complete B interval c header body
    pad (show header ++ body ++ pad = header ++ body ++ pad from rfl)
    (show 0 + 8 = header.length by simp [h]) (show body.length = body.length from rfl)
  have hprocess : (Cipher.processInPlace B.encryption c (header ++ body ++ pad) (0 + 8)
      (body.length + (blockSize - body.length % blockSize) - blockSize)).out =
        .ok (whole, header ++ B.encryption.blocks c whole ++ (rest ++ pad)) :=
    Cipher.processInPlace_cut header whole (rest ++ pad) (by rw [← hsplit]; simp)
      (by simp [h]) (by omega) hwhole (hB.encrypt_length c.key c.nonce whole hwhole)
  have hfinalPos : 0 + 8 + (body.length + (blockSize - body.length % blockSize)) - blockSize =
      (header ++ B.encryption.blocks c whole).length := by
    rw [List.length_append, h, hblocks]
    omega
  have hread : (readAt (header ++ B.encryption.blocks c whole ++ (rest ++ pad))
      (0 + 8 + (body.length + (blockSize - body.length % blockSize)) - blockSize)
      (blockSize - (blockSize - body.length % blockSize))).out = .ok rest :=
    readAt_cut (header ++ B.encryption.blocks c whole) rest pad (by simp) hfinalPos (by omega)
  have hwrite : (writeAt (header ++ B.encryption.blocks c whole ++ (rest ++ pad))
      (0 + 8 + (body.length + (blockSize - body.length % blockSize)) - blockSize) out).out =
        .ok (header ++ text) :=
    writeAt_cut (header ++ B.encryption.blocks c whole) (rest ++ pad) out [] (by simp)
      (by simp [htext']) hfinalPos (by rw [List.length_append, hpadLen, hlen]; omega)
  rw [Cipher.onSend, Traced.bind_of_ok (sub_of_le (by omega))]
  simp only [hsize, hne, if_false]
  rw [Traced.bind_of_ok (sub_of_le (by omega)), Traced.bind_of_ok (sub_of_le (by omega))]
  simp only [hsize]
  rw [Traced.bind_of_ok hhash, Traced.bind_of_ok (sub_of_le (by omega)),
    Traced.bind_of_ok hprocess]
  simp only []
  rw [Traced.bind_of_ok hread]
  simp only [hout]
  rw [Traced.bind_of_ok hwrite]
  by_cases hint : interval = 0
  · rw [if_pos hint] at hcomplete ⊢
    exact Traced.bind_of_error hcomplete _
  · rw [if_neg hint] at hcomplete ⊢
    rw [Traced.bind_of_ok hcomplete, Traced.bind_of_ok (updateLengthField_front h text _)]
    rfl

theorem Cipher.onRecv_nil (B : Botan) (interval : ℕ) (c : CipherImpl) (bytes : List UInt8)
    (msgOffset : ℕ) :
    (Cipher.onRecv B interval 8 c bytes msgOffset 8).out = .ok (c, bytes, 8) := by
  rw [Cipher.onRecv, Traced.bind_of_ok (sub_of_le (Nat.le_refl 8))]
  simp

theorem Cipher.onSend_nil (B : Botan) (interval : ℕ) (c : CipherImpl) {header : List UInt8}
    (h : header.length = 8) :
    (Cipher.onSend B interval 8 c header 0 header.length).out = .ok (c, header) := by
  rw [Cipher.onSend, h, Traced.bind_of_ok (sub_of_le (Nat.le_refl 8))]
  simp

/-- A text of whole blocks is decrypted where it stands.  Behind the plaintext
the last bytes of the text are left over. -/
theorem Cipher.onRecv_blocks {B : Botan} (hB : B.Lawful) (interval : ℕ) (c : CipherImpl)
    (pre header text post : List UInt8) {msgOffset msgLen : ℕ}
    (h : header.length = 8) (hpos : msgOffset = pre.length) (hlen : msgLen = 8 + text.length)
    (htext : text ≠ []) (hblock : text.length % blockSize = 0) :
    (Cipher.onRecv B interval 8 c (pre ++ header ++ text ++ post) msgOffset msgLen).out =
      match Cipher.decrypt B c text with
      | none => .error .thrown
      | some plain => if interval = 0 then .error .undefined
          else .ok (c.advance B interval plain,
            pre ++ header ++ (plain ++ text.drop plain.length) ++ post, 8 + plain.length) := by
  have hne : text.length ≠ 0 := fun h0 ↦ htext (List.length_eq_zero_iff.mp h0)
  have hge : blockSize ≤ text.length := by
    simp only [blockSize] at hblock ⊢
    omega
  set front := text.take (text.length - blockSize) with hfront
  set last := text.drop (text.length - blockSize) with hlast
  have hsplit : front ++ last = text := List.take_append_drop _ _
  have hfrontLen : front.length = text.length - blockSize := by simp [hfront]
  have hlastLen : last.length = blockSize := by
    rw [hlast, List.length_drop]
    omega
  have hfrontMod : front.length % blockSize = 0 := by
    rw [hfrontLen]
    simp only [blockSize] at hblock ⊢
    omega
  have hdec := hB.decrypt_length c.key c.nonce front hfrontMod
  have hblocks := CipherMode.length_blocks hdec
  have hsize : msgLen - 8 = text.length := by omega
  have hprocess : (Cipher.processInPlace B.decryption c (pre ++ header ++ text ++ post)
      (msgOffset + 8) (text.length - blockSize)).out =
        .ok (front, pre ++ header ++ B.decryption.blocks c front ++ (last ++ post)) :=
    Cipher.processInPlace_cut (pre ++ header) front (last ++ post)
      (by rw [← hsplit]; simp) (by simp [hpos, h]) hfrontLen.symm hfrontMod hdec
  have hfinalPos : msgOffset + 8 + text.length - blockSize =
      (pre ++ header ++ B.decryption.blocks c front).length := by
    simp only [List.length_append, hblocks, h, hfrontLen, hpos]
    omega
  have hread : (readAt (pre ++ header ++ B.decryption.blocks c front ++ (last ++ post))
      (msgOffset + 8 + text.length - blockSize) blockSize).out = .ok last :=
    readAt_cut (pre ++ header ++ B.decryption.blocks c front) last post (by simp) hfinalPos
      hlastLen.symm
  rw [Cipher.onRecv, Traced.bind_of_ok (sub_of_le (by omega))]
  simp only [hsize, hne, if_false]
  rw [Traced.bind_of_ok (sub_of_le (by omega))]
  simp only [hsize]
  rw [Traced.bind_of_ok (sub_of_le (by omega)), Traced.bind_of_ok (sub_of_le hge),
    Traced.bind_of_ok hprocess]
  simp only []
  rw [Traced.bind_of_ok hread, Cipher.decrypt, ← hfront, ← hlast]
  cases hfin : B.decryption.finish c.key c.nonce front last with
  | none => simp
  | some plain =>
      have hplain := hB.decrypt_finish_length c.key c.nonce front last plain hlastLen hfin
      simp only [Option.map_some]
      -- the unpadded last block overwrites the first bytes of the padded one
      have hwrite : (writeAt (pre ++ header ++ B.decryption.blocks c front ++ (last ++ post))
          (msgOffset + 8 + text.length - blockSize) plain).out =
            .ok (pre ++ header ++ B.decryption.blocks c front ++ plain ++
              (last.drop plain.length ++ post)) := by
        refine writeAt_cut (pre ++ header ++ B.decryption.blocks c front)
          (last.take plain.length) plain (last.drop plain.length ++ post) ?_ rfl hfinalPos
          (by simp [hlastLen, hplain])
        rw [List.append_assoc _ (last.take _), ← List.append_assoc (last.take _),
          List.take_append_drop]
      have hrest : text.drop (B.decryption.blocks c front ++ plain).length =
          last.drop plain.length := by
        rw [List.length_append, hblocks, ← hsplit, List.drop_append]
        simp
      obtain ⟨hashed, hhash, hcomplete⟩ := CipherImpl.updateHash_complete B interval c
        (pre ++ header) (B.decryption.blocks c front ++ plain) (last.drop plain.length ++ post)
        (show pre ++ header ++ B.decryption.blocks c front ++ plain ++
            (last.drop plain.length ++ post) = _ by simp)
        (show msgOffset + 8 = _ by simp [hpos, h])
        (show text.length - (blockSize - plain.length) = _ by
          rw [List.length_append, hblocks, hfrontLen]; omega)
      rw [Traced.bind_of_ok hwrite, Traced.bind_of_ok (sub_of_le hplain),
        Traced.bind_of_ok (sub_of_le (by omega))]
      simp only [hsize]
      rw [Traced.bind_of_ok (sub_of_le (by omega)), Traced.bind_of_ok hhash]
      by_cases hint : interval = 0
      · rw [if_pos hint] at hcomplete ⊢
        rw [Traced.bind_of_error hcomplete]
      · rw [if_neg hint] at hcomplete ⊢
        rw [Traced.bind_of_ok hcomplete, Traced.bind_of_ok (sub_of_le (by omega)), hrest]
        simp only [Traced.pure_out, Except.ok.injEq, Prod.mk.injEq, true_and]
        refine ⟨by simp, ?_⟩
        rw [List.length_append, hblocks, hfrontLen]
        omega

end WiseKernel.Net
