import WiseKernel.Net.Pipeline
import WiseKernel.Net.Session

/-!
# Hostile frames in the modifiers

The length of a frame comes from the peer and each modifier receives the
length the one before it computed.  The sizes are guarded by asserts only, so
`recv_modified` stays inside the frame exactly for those contents that leave
every modifier enough bytes.
-/

namespace WiseKernel.Net

open WiseKernel.Lib

/-- No wrap below zero, and no access outside the frame. -/
def Event.Within (msgPos msgLen : ℕ) : Event → Prop
  | .sub a b => b ≤ a
  | .touch pos len => msgPos ≤ pos ∧ pos + len ≤ msgPos + msgLen

section Primitives

variable {p : Event → Prop}

@[simp] theorem every_sub (a b : ℕ) : Traced.Every p (sub a b) ↔ p (.sub a b) := by
  simp [sub, Traced.every_bind]

@[simp] theorem every_readAt (bytes : List UInt8) (pos len : ℕ) :
    Traced.Every p (readAt bytes pos len) ↔ p (.touch pos len) := by
  simp only [readAt, Traced.every_bind, Traced.every_emit]
  split_ifs <;> simp

@[simp] theorem every_writeAt (bytes : List UInt8) (pos : ℕ) (xs : List UInt8) :
    Traced.Every p (writeAt bytes pos xs) ↔ p (.touch pos xs.length) := by
  simp only [writeAt, Traced.every_bind, Traced.every_emit]
  split_ifs <;> simp

theorem every_sub_bind {α : Type} {pos len a b : ℕ} {f : ℕ → Run α} (h : b ≤ a)
    (hf : Traced.Every (Event.Within pos len) (f (a - b))) :
    Traced.Every (Event.Within pos len) (sub a b >>= f) :=
  (Traced.every_bind_of_ok (sub_of_le h) f).mpr ⟨(every_sub a b).mpr h, hf⟩

theorem length_of_readAt {bytes xs : List UInt8} {pos len : ℕ}
    (h : (readAt bytes pos len).out = .ok xs) : xs.length = len := by
  by_cases hle : pos + len ≤ bytes.length
  · rw [readAt_of_le hle] at h
    obtain rfl := Except.ok.inj h
    exact length_window hle
  · rw [readAt_of_lt (Nat.lt_of_not_le hle)] at h
    cases h

end Primitives

/-! ## Each modifier with enough bytes -/

section Within

variable {B : Botan} {pos n : ℕ}

theorem Cipher.every_processInPlace (hB : B.Lawful) (c : CipherImpl) (bytes : List UInt8)
    {start len : ℕ} (hstart : pos ≤ start) (hend : start + len ≤ pos + (8 + n)) :
    Traced.Every (Event.Within pos (8 + n))
      (Cipher.processInPlace B.decryption c bytes start len) := by
  unfold Cipher.processInPlace
  split_ifs with hzero hblock
  · exact Traced.every_pure _ _
  · exact Traced.every_stop _ _
  · simp only [Traced.every_bind, every_readAt, every_writeAt]
    refine ⟨⟨hstart, hend⟩, fun blocks hread ↦ ⟨⟨hstart, ?_⟩, fun _ _ ↦ Traced.every_pure _ _⟩⟩
    have hlen := length_of_readAt hread
    rw [hB.decrypt_length _ _ _ (by rw [hlen]; omega), hlen]
    exact hend

theorem CipherImpl.every_complete (p : Event → Prop) (interval : ℕ) (c : CipherImpl) :
    Traced.Every p (c.complete interval) := by
  unfold CipherImpl.complete
  split
  · exact Traced.every_pure _ _
  · exact Traced.every_stop _ _

theorem Cipher.every_onRecv (hB : B.Lawful) (interval : ℕ) (c : CipherImpl)
    (bytes : List UInt8) (hblock : n % blockSize = 0) :
    Traced.Every (Event.Within pos (8 + n))
      (Cipher.onRecv B interval 8 c bytes pos (8 + n)) := by
  refine every_sub_bind (by omega) ?_
  rw [Nat.add_sub_cancel_left]
  split_ifs with hzero
  · exact Traced.every_pure _ _
  have hge : blockSize ≤ n := by
    simp only [blockSize] at hblock ⊢
    omega
  refine every_sub_bind (by omega) ?_
  rw [Nat.add_sub_cancel_left]
  refine every_sub_bind (by omega) (every_sub_bind hge ?_)
  refine (Traced.every_bind _ _ _).mpr
    ⟨Cipher.every_processInPlace hB c bytes (by omega) (by omega), ?_⟩
  rintro ⟨blocks, after⟩ -
  refine (Traced.every_bind _ _ _).mpr ⟨(every_readAt _ _ _).mpr ⟨by omega, by omega⟩, ?_⟩
  intro last hread
  cases hfin : B.decryption.finish c.key c.nonce blocks last with
  | none => exact Traced.every_stop _ _
  | some plain =>
      have hplain := hB.decrypt_finish_length _ _ _ _ _ (length_of_readAt hread) hfin
      refine (Traced.every_bind _ _ _).mpr
        ⟨(every_writeAt _ _ _).mpr ⟨by omega, by omega⟩, fun written _ ↦ ?_⟩
      refine every_sub_bind hplain (every_sub_bind (by omega) ?_)
      rw [Nat.add_sub_cancel_left]
      refine every_sub_bind (by omega) ?_
      simp only [CipherImpl.updateHash, Traced.every_bind, every_readAt]
      refine ⟨⟨⟨by omega, by omega⟩, fun _ _ ↦ Traced.every_pure _ _⟩, fun hashed _ ↦
        ⟨hashed.every_complete _ interval, fun done _ ↦ ⟨?_, fun _ _ ↦ Traced.every_pure _ _⟩⟩⟩
      exact (every_sub _ _).mpr (show _ ≤ _ by omega)

theorem Checksum.every_onRecv (bytes : List UInt8) (h : n = 0 ∨ 4 ≤ n) :
    Traced.Every (Event.Within pos (8 + n)) (Checksum.onRecv B 8 bytes pos (8 + n)) := by
  unfold Checksum.onRecv
  split_ifs with hzero
  · exact Traced.every_pure _ _
  have hge : 4 ≤ n := by omega
  cases B.crc32 with
  | none => exact Traced.every_pure _ _
  | some hash =>
      simp only [checksumSize]
      refine every_sub_bind (by omega) (every_sub_bind (by omega) ?_)
      refine (Traced.every_bind _ _ _).mpr
        ⟨(every_readAt _ _ _).mpr ⟨by omega, by omega⟩, fun payload _ ↦ ?_⟩
      refine every_sub_bind (by omega) ?_
      refine (Traced.every_bind _ _ _).mpr
        ⟨(every_readAt _ _ _).mpr ⟨by omega, by omega⟩, fun crc _ ↦ ?_⟩
      split_ifs
      · exact every_sub_bind (by omega) (Traced.every_pure _ _)
      · exact Traced.every_pure _ _

/-- Fewer bytes behind the header than a checksum has: the payload length
wraps. -/
theorem Checksum.not_every_onRecv (hB : B.Lawful) (bytes : List UInt8) (h0 : n ≠ 0)
    (h4 : n < 4) (len : ℕ) :
    ¬ Traced.Every (Event.Within pos len) (Checksum.onRecv B 8 bytes pos (8 + n)) := by
  obtain ⟨hash, hhash⟩ := Option.isSome_iff_exists.mp hB.crc32_available
  simp only [Checksum.onRecv, hhash, if_neg (show 8 + n ≠ 8 by omega), checksumSize]
  rw [Traced.every_bind_of_ok (sub_of_le (by omega)), Traced.every_bind, every_sub, every_sub]
  rintro ⟨-, hwrap, -⟩
  change 8 ≤ 8 + n - 4 at hwrap
  omega

theorem Sequencer.every_onRecv (s : Sequencer) (bytes : List UInt8) :
    Traced.Every (Event.Within pos (8 + n)) (s.onRecv bytes pos (8 + n)) := by
  simp only [Sequencer.onRecv, sequenceSize]
  refine every_sub_bind (by omega) ?_
  refine (Traced.every_bind _ _ _).mpr
    ⟨(every_readAt _ _ _).mpr ⟨by omega, by omega⟩, fun seq _ ↦ ?_⟩
  split_ifs
  · exact every_sub_bind (by omega) (Traced.every_pure _ _)
  · exact Traced.every_pure _ _

end Within

/-! ## Each modifier's answer to contents it does not accept -/

section Answers

variable {B : Botan} {cfg : Config}

/-- A body that is not a whole number of blocks goes to the library as it is,
which does not define the result. -/
theorem Cipher.onRecv_partial (B : Botan) (interval : ℕ) (c : CipherImpl) (bytes : List UInt8)
    (pos : ℕ) {n : ℕ} (h : n % blockSize ≠ 0) :
    (Cipher.onRecv B interval 8 c bytes pos (8 + n)).out = .error .undefined := by
  have hne : n ≠ 0 := fun h0 ↦ h (by simp [h0])
  have hprocess : (Cipher.processInPlace B.decryption c bytes (pos + 8)
      (subSize n blockSize)).out = .error .undefined := by
    have hmod : subSize n blockSize % blockSize ≠ 0 := by
      by_cases hle : blockSize ≤ n
      · simp only [subSize, if_pos hle]
        simp only [blockSize] at h hle ⊢
        omega
      · simp only [subSize, if_neg hle]
        simp only [blockSize] at h hle ⊢
        omega
    have hzero : subSize n blockSize ≠ 0 := fun h0 ↦ hmod (by simp [h0])
    rw [Cipher.processInPlace, if_neg hzero, if_pos hmod]
    rfl
  rw [Cipher.onRecv, Traced.bind_of_ok (sub_of_le (by omega)), Nat.add_sub_cancel_left,
    if_neg hne, Traced.bind_of_ok (sub_of_le (by omega)), Nat.add_sub_cancel_left,
    Traced.bind_of_ok (sub_out _ _), Traced.bind_of_ok (sub_out _ _),
    Traced.bind_of_error hprocess]

theorem stage_cipher_none (hB : B.Lawful) {on : Bool} {m : Modifiers} {body : List UInt8}
    (h : unwrapCipher B cfg.keyChangeInterval on m body = none)
    (pre : List UInt8) {header : List UInt8} (hh : header.length = 8) (post : List UInt8) :
    ∃ a, (Received.stage on (Received.cipher B cfg pre.length)
      ⟨.ok, m, pre ++ header ++ body ++ post, 8 + body.length⟩).out = .error a := by
  by_cases hon : on = true ∧ body ≠ []
  · obtain ⟨rfl, hbody⟩ := hon
    have hrecv : ∃ a, (Cipher.onRecv B cfg.keyChangeInterval 8 m.cipher.receiver
        (pre ++ header ++ body ++ post) pre.length (8 + body.length)).out = .error a := by
      by_cases hblock : body.length % blockSize = 0
      · have hout := Cipher.onRecv_blocks hB cfg.keyChangeInterval m.cipher.receiver pre header
          body post hh rfl rfl hbody hblock
        rw [unwrapCipher, if_pos ⟨rfl, hbody⟩] at h
        cases hdec : Cipher.decrypt B m.cipher.receiver body with
        | none => exact ⟨_, by simpa [hdec] using hout⟩
        | some plain =>
            have hint : cfg.keyChangeInterval = 0 := by simpa [hblock, hdec] using h
            exact ⟨_, by simpa [hdec, hint] using hout⟩
      · exact ⟨_, Cipher.onRecv_partial B _ _ _ _ hblock⟩
    obtain ⟨a, ha⟩ := hrecv
    exact ⟨a, Traced.bind_of_error ha _⟩
  · rw [unwrapCipher, if_neg hon] at h
    cases h

theorem stage_checksum_none (hB : B.Lawful) {on : Bool} {m : Modifiers} {body : List UInt8}
    (h : unwrapChecksum B on body = none) (h4 : 4 ≤ body.length)
    (pre : List UInt8) {header : List UInt8} (hh : header.length = 8) (junk post : List UInt8) :
    ∃ r, (Received.stage on (Received.checksum B pre.length)
      ⟨.ok, m, framed pre header body junk post, 8 + body.length⟩).out = .ok r ∧
        r.rc.code = false := by
  by_cases hon : on = true ∧ body ≠ []
  · obtain ⟨rfl, hbody⟩ := hon
    obtain ⟨hash, hhash⟩ := Option.isSome_iff_exists.mp hB.crc32_available
    have hsplit := List.take_append_drop (body.length - 4) body
    have hne : ¬ body.drop (body.length - 4) = (hash (body.take (body.length - 4))).1 := by
      simpa [unwrapChecksum, hbody, hhash, h4] using h
    have hrecv := Checksum.onRecv_append hhash pre header (body.take (body.length - 4))
      (body.drop (body.length - 4)) (junk ++ post) hh (by simp; omega) rfl
      (show 8 + body.length = _ by simp; omega)
    rw [if_neg hne, hsplit] at hrecv
    have hframe : framed pre header body junk post =
        pre ++ header ++ body ++ (junk ++ post) := by simp [framed]
    refine ⟨⟨.fail .failIncorrectChecksum, m, framed pre header body junk post,
      8 + body.length⟩, ?_, rfl⟩
    rw [hframe]
    exact Traced.bind_of_ok hrecv _
  · rw [unwrapChecksum, if_neg hon] at h
    cases h

/-- The sequencer looks at the last byte of the frame, whatever it belongs to. -/
theorem Sequencer.onRecv_frame (s : Sequencer) (pre : List UInt8) {frame : List UInt8}
    (hne : frame ≠ []) (post : List UInt8) :
    (s.onRecv (pre ++ frame ++ post) pre.length frame.length).out =
      .ok (if frame.getLast? = some s.recvSeq
        then (.ok, { s with recvSeq := s.recvSeq + 1 }, frame.length - 1)
        else (.fail .failInvalidMessageSequence, { s with recvSeq := s.recvSeq + 1 },
          frame.length)) := by
  have hsplit : frame.dropLast ++ ([] ++ [frame.getLast hne]) = frame :=
    List.dropLast_append_getLast hne
  have hpos : 0 < frame.length := List.length_pos_iff.mpr hne
  have hrecv := s.onRecv_append pre frame.dropLast [] post (frame.getLast hne) rfl
    (show frame.length = _ by simp; omega)
  rw [List.append_assoc pre, hsplit] at hrecv
  rw [hrecv, List.getLast?_eq_some_getLast hne]
  simp

end Answers

/-! ## The whole pipeline -/

section Pipeline

variable {B : Botan} {cfg : Config} {flags : Flags} {m : Modifiers}

theorem every_stage {p : Event → Prop} {on : Bool} {f : Received → Run Received} {r : Received}
    (hrc : r.rc.code = true) :
    Traced.Every p (Received.stage on f r) ↔ (on = true → Traced.Every p (f r)) := by
  cases on <;> simp [Received.stage, hrc]

theorem stage_of_failed {on : Bool} {f : Received → Run Received} {r : Received}
    (hrc : r.rc.code = false) : Received.stage on f r = pure r := by
  simp [Received.stage, hrc]

/-- The body is not a whole number of cipher blocks, or at its turn the
checksum or the sequencer finds fewer bytes than it has written. -/
def TooShort (B : Botan) (cfg : Config) (flags : Flags) (m : Modifiers) (body : List UInt8) :
    Prop :=
  let on := cfg.inForce flags
  on.enableCipher = true ∧ body.length % blockSize ≠ 0 ∨
    ∃ m₁ body₁, unwrapCipher B cfg.keyChangeInterval on.enableCipher m body = some (m₁, body₁) ∧
      (on.enableChecksum = true ∧ body₁ ≠ [] ∧ body₁.length < 4 ∨
        unwrapChecksum B on.enableChecksum body₁ = some [] ∧ on.enableSequence = true)

/-- `recv_modified` on the frame `header ++ body` between other bytes: no
length wraps, no byte outside the frame is touched, a success reports at least
the header, and a frame that is too short is returned as an error. -/
structure StaysInside (B : Botan) (cfg : Config) (flags : Flags) (m : Modifiers)
    (pre header body post : List UInt8) : Prop where
  within : Traced.Every (Event.Within pre.length (header ++ body).length)
    (recvModified B cfg flags m (pre ++ header ++ body ++ post) pre.length
      (header ++ body).length)
  length : ∀ r, (recvModified B cfg flags m (pre ++ header ++ body ++ post) pre.length
    (header ++ body).length).out = .ok r → r.rc.code = true → headerLength ≤ r.len
  rejects : TooShort B cfg flags m body →
    ∃ r, (recvModified B cfg flags m (pre ++ header ++ body ++ post) pre.length
      (header ++ body).length).out = .ok r ∧ r.rc.code = false

/-- Every modifier in force has enough bytes at its turn; a sequencer without
any may instead find a header byte that is not its number. -/
structure Fits (B : Botan) (cfg : Config) (flags : Flags) (m : Modifiers)
    (header body : List UInt8) : Prop where
  blocks : (cfg.inForce flags).enableCipher = true → body.length % blockSize = 0
  checksum : ∀ m₁ body₁, unwrapCipher B cfg.keyChangeInterval
      (cfg.inForce flags).enableCipher m body = some (m₁, body₁) →
    (cfg.inForce flags).enableChecksum = true → body₁ = [] ∨ 4 ≤ body₁.length
  sequence : ∀ m₁ body₁, unwrapCipher B cfg.keyChangeInterval
      (cfg.inForce flags).enableCipher m body = some (m₁, body₁) →
    unwrapChecksum B (cfg.inForce flags).enableChecksum body₁ = some [] →
    (cfg.inForce flags).enableSequence = true →
      header.getLast? ≠ some m₁.sequencer.recvSeq

theorem recvModified_eq (bytes : List UInt8) (pos len : ℕ) :
    recvModified B cfg flags m bytes pos len =
      (Received.stage (cfg.inForce flags).enableCipher (Received.cipher B cfg pos)
        ⟨.ok, m, bytes, len⟩ >>= fun r ↦
          Received.stage (cfg.inForce flags).enableChecksum (Received.checksum B pos) r >>=
            Received.stage (cfg.inForce flags).enableSequence (Received.sequencer pos)) :=
  rfl

theorem Event.Within.mono {pos n n' : ℕ} (h : n ≤ n') (e : Event) (he : e.Within pos n) :
    e.Within pos n' := by
  cases e with
  | sub a b => exact he
  | touch p len =>
      obtain ⟨hlo, hhi⟩ := he
      exact ⟨hlo, by omega⟩

theorem every_stage_cipher (hB : B.Lawful) {on : Bool} {pos n : ℕ} {bytes : List UInt8}
    (h : on = true → n % blockSize = 0) :
    Traced.Every (Event.Within pos (8 + n))
      (Received.stage on (Received.cipher B cfg pos) ⟨.ok, m, bytes, 8 + n⟩) := by
  refine (every_stage rfl).mpr fun hon ↦ ?_
  exact (Traced.every_bind _ _ _).mpr
    ⟨Cipher.every_onRecv hB _ _ _ (h hon), fun _ _ ↦ Traced.every_pure _ _⟩

theorem every_stage_checksum {on : Bool} {pos n : ℕ} {bytes : List UInt8}
    (h : on = true → n = 0 ∨ 4 ≤ n) :
    Traced.Every (Event.Within pos (8 + n))
      (Received.stage on (Received.checksum B pos) ⟨.ok, m, bytes, 8 + n⟩) := by
  refine (every_stage rfl).mpr fun hon ↦ ?_
  exact (Traced.every_bind _ _ _).mpr
    ⟨Checksum.every_onRecv _ (h hon), fun _ _ ↦ Traced.every_pure _ _⟩

theorem every_stage_sequencer {on : Bool} {pos n : ℕ} {bytes : List UInt8} :
    Traced.Every (Event.Within pos (8 + n))
      (Received.stage on (Received.sequencer pos) ⟨.ok, m, bytes, 8 + n⟩) := by
  refine (every_stage rfl).mpr fun _ ↦ ?_
  exact (Traced.every_bind _ _ _).mpr
    ⟨Sequencer.every_onRecv _ _, fun _ _ ↦ Traced.every_pure _ _⟩

theorem stage_sequencer_frame (pre : List UInt8) {header : List UInt8}
    (hh : header.length = 8) (body junk post : List UInt8) :
    ∃ r, (Received.stage true (Received.sequencer pre.length)
        ⟨.ok, m, framed pre header body junk post, 8 + body.length⟩).out = .ok r ∧
      if (header ++ body).getLast? = some m.sequencer.recvSeq
        then r.rc.code = true ∧ r.len = 8 + body.length - 1
        else r.rc.code = false := by
  have hne : header ++ body ≠ [] := by
    intro hnil
    have := congrArg List.length hnil
    simp [hh] at this
  have hlen : (header ++ body).length = 8 + body.length := by simp [hh]
  have hframe : framed pre header body junk post = pre ++ (header ++ body) ++ (junk ++ post) := by
    simp [framed]
  have hrecv := m.sequencer.onRecv_frame pre hne (junk ++ post)
  rw [hlen] at hrecv
  rw [hframe]
  by_cases hlast : (header ++ body).getLast? = some m.sequencer.recvSeq
  · rw [if_pos hlast] at hrecv
    simp only [if_pos hlast]
    exact ⟨_, Traced.bind_of_ok hrecv _, rfl, rfl⟩
  · rw [if_neg hlast] at hrecv
    simp only [if_neg hlast]
    exact ⟨_, Traced.bind_of_ok hrecv _, rfl⟩

theorem stage_cipher_arriving (hB : B.Lawful) {on : Bool} {m' : Modifiers} {body body' : List UInt8}
    (h : unwrapCipher B cfg.keyChangeInterval on m body = some (m', body'))
    (pre : List UInt8) {header : List UInt8} (hh : header.length = 8) (post : List UInt8) :
    ∃ junk, body'.length + junk.length = body.length ∧
      (Received.stage on (Received.cipher B cfg pre.length)
        ⟨.ok, m, pre ++ header ++ body ++ post, 8 + body.length⟩).out =
          .ok ⟨.ok, m', framed pre header body' junk post, 8 + body'.length⟩ := by
  obtain ⟨junk, hlen, hout⟩ := stage_cipher hB h pre hh [] post
  refine ⟨junk, hlen, ?_⟩
  rw [← hout]
  simp [framed]

theorem length_unwrapChecksum_le {on : Bool} {body body' : List UInt8}
    (h : unwrapChecksum B on body = some body') : body'.length ≤ body.length := by
  unfold unwrapChecksum at h
  split_ifs at h
  · obtain ⟨hash, -, h⟩ := Option.bind_eq_some_iff.mp h
    dsimp only at h
    split_ifs at h
    obtain rfl := Option.some.inj h
    simp
  · obtain rfl := Option.some.inj h
    exact Nat.le_refl _

/-- The checksum's and the sequencer's stages on a body that fits. -/
theorem rest_staysInside (hB : B.Lawful) {header body : List UInt8} (hh : header.length = 8)
    (pre junk post : List UInt8)
    (hchecksum : (cfg.inForce flags).enableChecksum = true → body = [] ∨ 4 ≤ body.length)
    (hsequence : unwrapChecksum B (cfg.inForce flags).enableChecksum body = some [] →
      (cfg.inForce flags).enableSequence = true →
        header.getLast? ≠ some m.sequencer.recvSeq)
    {run : Run Received}
    (hrun : run = (Received.stage (cfg.inForce flags).enableChecksum
      (Received.checksum B pre.length)
      ⟨.ok, m, framed pre header body junk post, 8 + body.length⟩ >>=
        Received.stage (cfg.inForce flags).enableSequence (Received.sequencer pre.length))) :
    Traced.Every (Event.Within pre.length (8 + body.length)) run ∧
      (∀ r, run.out = .ok r → r.rc.code = true → headerLength ≤ r.len) ∧
      (unwrapChecksum B (cfg.inForce flags).enableChecksum body = some [] →
        (cfg.inForce flags).enableSequence = true →
          ∃ r, run.out = .ok r ∧ r.rc.code = false) := by
  subst hrun
  have hstage : Traced.Every (Event.Within pre.length (8 + body.length))
      (Received.stage (cfg.inForce flags).enableChecksum (Received.checksum B pre.length)
        ⟨.ok, m, framed pre header body junk post, 8 + body.length⟩) :=
    every_stage_checksum fun hon ↦ by simpa using hchecksum hon
  cases hcrc : unwrapChecksum B (cfg.inForce flags).enableChecksum body with
  | none =>
      have hon : (cfg.inForce flags).enableChecksum = true ∧ body ≠ [] := by
        by_contra hoff
        simp only [unwrapChecksum, if_neg hoff] at hcrc
        cases hcrc
      have h4 := (hchecksum hon.1).resolve_left hon.2
      obtain ⟨r, hout, hrc⟩ := stage_checksum_none (m := m) hB hcrc h4 pre hh junk post
      rw [Traced.every_bind_of_ok hout, stage_of_failed hrc, Traced.bind_of_ok hout,
        stage_of_failed hrc]
      refine ⟨⟨hstage, Traced.every_pure _ _⟩, ?_, fun h ↦ by cases h⟩
      rintro r' hr' hrc'
      obtain rfl := Except.ok.inj hr'
      rw [hrc] at hrc'
      cases hrc'
  | some body₂ =>
      obtain ⟨junk₂, hlen₂, hout₂⟩ := stage_checksum (m := m) hcrc pre hh junk post
      have hle := length_unwrapChecksum_le hcrc
      rw [Traced.every_bind_of_ok hout₂, Traced.bind_of_ok hout₂]
      refine ⟨⟨hstage, every_stage_sequencer.mono fun e he ↦ he.mono (by omega) e⟩, ?_⟩
      cases hseq : (cfg.inForce flags).enableSequence with
      | false =>
          refine ⟨?_, fun _ h ↦ by cases h⟩
          rintro r hr -
          obtain rfl := Except.ok.inj hr
          exact Nat.le_add_right 8 _
      | true =>
          obtain ⟨r, hout, hr⟩ := stage_sequencer_frame (m := m) pre hh body₂ junk₂ post
          by_cases hnil : body₂ = []
          · -- the last byte belongs to the header and is not the expected number
            have hlast := hsequence (by rw [hcrc, hnil]) hseq
            rw [hnil, List.append_nil, if_neg hlast] at hr
            refine ⟨?_, fun _ _ ↦ ⟨r, hout, hr⟩⟩
            intro r' hr' hrc'
            obtain rfl := Except.ok.inj (hout.symm.trans hr')
            rw [hr] at hrc'
            cases hrc'
          · have hpos := List.length_pos_iff.mpr hnil
            refine ⟨?_, fun h ↦ absurd (Option.some.inj h) hnil⟩
            intro r' hr' hrc'
            obtain rfl := Except.ok.inj (hout.symm.trans hr')
            split_ifs at hr
            · rw [hr.2]
              simp only [headerLength]
              omega
            · rw [hr] at hrc'
              cases hrc'

theorem fits_of_staysInside (hB : B.Lawful) {pre header body post : List UInt8}
    (hh : header.length = headerLength) (h : StaysInside B cfg flags m pre header body post) :
    Fits B cfg flags m header body := by
  have hlen : (header ++ body).length = 8 + body.length := by
    rw [List.length_append, hh]
    rfl
  obtain ⟨hwithin, hlength, hrejects⟩ := h
  rw [hlen] at hwithin hlength hrejects
  refine ⟨fun hon ↦ ?_, fun m₁ body₁ hcipher hon ↦ ?_, fun m₁ body₁ hcipher hcrc hon hlast ↦ ?_⟩
  · by_contra hblock
    obtain ⟨r, hout, -⟩ := hrejects (.inl ⟨hon, hblock⟩)
    have herr : (Received.stage (cfg.inForce flags).enableCipher
        (Received.cipher B cfg pre.length)
        ⟨.ok, m, pre ++ header ++ body ++ post, 8 + body.length⟩).out = .error .undefined := by
      rw [hon]
      exact Traced.bind_of_error (Cipher.onRecv_partial B _ _ _ _ hblock) _
    rw [recvModified_eq, Traced.bind_of_error herr] at hout
    cases hout
  · by_contra hshort
    obtain ⟨hne, h4⟩ := not_or.mp hshort
    obtain ⟨junk, -, hout⟩ := stage_cipher_arriving hB hcipher pre hh post
    rw [recvModified_eq, Traced.every_bind_of_ok hout] at hwithin
    have hstage := ((Traced.every_bind _ _ _).mp hwithin.2).1
    have hchecksum := ((Traced.every_bind _ _ _).mp ((every_stage rfl).mp hstage hon)).1
    have hne' : body₁.length ≠ 0 := by simpa using hne
    exact Checksum.not_every_onRecv hB _ hne' (by omega) _ hchecksum
  · obtain ⟨junk₁, -, hout₁⟩ := stage_cipher_arriving hB hcipher pre hh post
    obtain ⟨junk₂, -, hout₂⟩ := stage_checksum (m := m₁) hcrc pre hh junk₁ post
    obtain ⟨r, hout, hr⟩ := stage_sequencer_frame (m := m₁) pre hh [] junk₂ post
    rw [if_pos (by simpa using hlast)] at hr
    have hrun := hlength r (by
      rw [recvModified_eq, Traced.bind_of_ok hout₁, Traced.bind_of_ok hout₂, hon]
      exact hout) hr.1
    rw [hr.2] at hrun
    simp [headerLength] at hrun

theorem staysInside_of_fits (hB : B.Lawful) {pre header body post : List UInt8}
    (hh : header.length = headerLength) (h : Fits B cfg flags m header body) :
    StaysInside B cfg flags m pre header body post := by
  have hlen : (header ++ body).length = 8 + body.length := by
    rw [List.length_append, hh]
    rfl
  have hfirst : Traced.Every (Event.Within pre.length (8 + body.length))
      (Received.stage (cfg.inForce flags).enableCipher (Received.cipher B cfg pre.length)
        ⟨.ok, m, pre ++ header ++ body ++ post, 8 + body.length⟩) :=
    every_stage_cipher hB h.blocks
  -- a frame that is too short fits only through the sequencer's reading of a header byte
  have htoo : TooShort B cfg flags m body → ∃ m₁ body₁, unwrapCipher B cfg.keyChangeInterval
      (cfg.inForce flags).enableCipher m body = some (m₁, body₁) ∧
      unwrapChecksum B (cfg.inForce flags).enableChecksum body₁ = some [] ∧
      (cfg.inForce flags).enableSequence = true := by
    rintro (⟨hon, hblock⟩ | ⟨m₁, body₁, hcipher, ⟨hon, hne, h4⟩ | hseq⟩)
    · exact absurd (h.blocks hon) hblock
    · have := (h.checksum m₁ body₁ hcipher hon).resolve_left hne
      omega
    · exact ⟨m₁, body₁, hcipher, hseq⟩
  cases hcipher : unwrapCipher B cfg.keyChangeInterval (cfg.inForce flags).enableCipher m
      body with
  | none =>
      obtain ⟨a, hout⟩ := stage_cipher_none hB hcipher pre hh post
      refine ⟨?_, ?_, fun hshort ↦ ?_⟩
      · rw [hlen, recvModified_eq]
        exact (Traced.every_bind _ _ _).mpr ⟨hfirst, fun r hr ↦ by rw [hout] at hr; cases hr⟩
      · intro r hr
        rw [hlen, recvModified_eq, Traced.bind_of_error hout] at hr
        cases hr
      · obtain ⟨m₁, body₁, hsome, -⟩ := htoo hshort
        rw [hcipher] at hsome
        cases hsome
  | some x =>
      obtain ⟨m₁, body₁⟩ := x
      obtain ⟨junk, hjunk, hout⟩ := stage_cipher_arriving hB hcipher pre hh post
      obtain ⟨hwithin, hlength, hrejects⟩ := rest_staysInside hB hh pre junk post
        (h.checksum m₁ body₁ hcipher) (h.sequence m₁ body₁ hcipher) rfl
      refine ⟨?_, ?_, fun hshort ↦ ?_⟩
      · rw [hlen, recvModified_eq, Traced.every_bind_of_ok hout]
        exact ⟨hfirst, hwithin.mono fun e he ↦ he.mono (by omega) e⟩
      · rw [hlen, recvModified_eq, Traced.bind_of_ok hout]
        exact hlength
      · obtain ⟨m₂, body₂, hsome, hcrc, hseq⟩ := htoo hshort
        obtain ⟨-, rfl⟩ := Prod.mk.inj (Option.some.inj (hcipher.symm.trans hsome))
        rw [hlen, recvModified_eq, Traced.bind_of_ok hout]
        exact hrejects hcrc hseq

/-- `recv_modified` stays inside a hostile frame exactly when the contents
leave every modifier enough bytes. -/
theorem staysInside_iff (hB : B.Lawful) (cfg : Config) (flags : Flags) (m : Modifiers)
    (pre : List UInt8) {header : List UInt8} (hh : header.length = headerLength)
    (body post : List UInt8) :
    StaysInside B cfg flags m pre header body post ↔ Fits B cfg flags m header body :=
  ⟨fits_of_staysInside hB hh, staysInside_of_fits hB hh⟩

end Pipeline

/-- A frame with all three modifiers, as the peer sends it. -/
theorem staysInside_sample :
    StaysInside sampleBotan {} ⟨true, true, true⟩ .initial [0xEE]
      [24, 0, 0, 0, 0x01, 0x00, 0x01, 0x02] sampleText [0xEE, 0xEE] := by
  refine (staysInside_iff sampleBotan_lawful _ _ _ _ rfl _ _).mpr
    ⟨fun _ ↦ rfl, fun m₁ body₁ hcipher _ ↦ ?_, fun m₁ body₁ hcipher hcrc _ ↦ ?_⟩ <;>
  obtain ⟨-, rfl⟩ : _ ∧ samplePlain = body₁ := Prod.mk.inj (Option.some.inj hcipher)
  · decide
  · exact absurd (Option.some.inj hcrc) (by decide)

/-- A checksum frame with a single byte behind its header. -/
theorem not_staysInside_short :
    ¬ StaysInside sampleBotan {} ⟨false, true, false⟩ .initial []
      [9, 0, 0, 0, 0x01, 0x00, 0x01, 0x02] [0] [] := by
  intro h
  have hwrap : (8 : ℕ) ≤ 5 := h.within (.sub 5 8) (by decide)
  exact absurd hwrap (by decide)

end WiseKernel.Net
