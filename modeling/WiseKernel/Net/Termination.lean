import WiseKernel.Net.ReceiveLoop
import WiseKernel.Net.Session

/-!
# Does the receive loop end?

Every iteration moves the iterator by the length field of the frame, so the
rest of the buffer gets smaller unless that field is zero.  A zero length
passes every check when no modifier is in force, and the same header is then
read again.
-/

namespace WiseKernel.Net

open WiseKernel.Lib

variable {P : Type} {E : Env P}

/-! ## A zero length under the modifiers -/

/-- The cipher is asked for a number of bytes that is not a whole number of
blocks. -/
theorem Cipher.onRecv_zero (B : Botan) (interval : ℕ) (c : CipherImpl) (bytes : List UInt8)
    (pos : ℕ) :
    (Cipher.onRecv B interval headerLength c bytes pos 0).out = .error .undefined := by
  have hprocess : (Cipher.processInPlace B.decryption c bytes (pos + headerLength)
      (subSize (subSize 0 headerLength) blockSize)).out = .error .undefined := by
    simp [Cipher.processInPlace, subSize, headerLength, blockSize]
  rw [Cipher.onRecv, Traced.bind_of_ok (sub_out _ _), if_neg (by simp [subSize, headerLength]),
    Traced.bind_of_ok (sub_out _ _), Traced.bind_of_ok (sub_out _ _),
    Traced.bind_of_ok (sub_out _ _), Traced.bind_of_error hprocess]

/-- The checksum is taken over more bytes than any buffer holds. -/
theorem Checksum.onRecv_zero (B : Botan) {bytes : List UInt8} (hsize : bytes.length < 2 ^ 63)
    (pos : ℕ) {rc : Result} {len : ℕ}
    (h : (Checksum.onRecv B headerLength bytes pos 0).out = .ok (rc, len)) :
    rc.code = false := by
  rw [Checksum.onRecv, if_neg (by simp [headerLength])] at h
  cases hcrc : B.crc32 with
  | none =>
      simp only [hcrc, Traced.pure_out, Except.ok.injEq, Prod.mk.injEq] at h
      rw [← h.1]
      rfl
  | some hash =>
      have hread : (readAt bytes (pos + headerLength)
          (subSize (subSize 0 checksumSize) headerLength)).out = .error .undefined := by
        apply readAt_of_lt
        have hwrap : subSize (subSize 0 checksumSize) headerLength = 2 ^ 64 - 12 := by decide
        omega
      simp only [hcrc] at h
      rw [Traced.bind_of_ok (sub_out _ _), Traced.bind_of_ok (sub_out _ _),
        Traced.bind_of_error hread] at h
      cases h

/-- The sequencer reports a wrapped length. -/
theorem Sequencer.onRecv_zero (s : Sequencer) (bytes : List UInt8) (pos : ℕ) {rc : Result}
    {s' : Sequencer} {len : ℕ} (h : (s.onRecv bytes pos 0).out = .ok (rc, s', len))
    (hrc : rc.code = true) : len = 2 ^ 64 - 1 := by
  simp only [Sequencer.onRecv, Traced.bind_eq_ok, sub_out] at h
  obtain ⟨-, -, seq, -, h⟩ := h
  split_ifs at h
  · simp only [Traced.bind_eq_ok, sub_out, Traced.pure_out, Except.ok.injEq, Prod.mk.injEq] at h
    obtain ⟨newLen, rfl, -, -, rfl⟩ := h
    rfl
  · simp only [Traced.pure_out, Except.ok.injEq, Prod.mk.injEq] at h
    rw [← h.1] at hrc
    cases hrc

/-- A frame of length zero that the modifiers accept is reported as longer
than any buffer. -/
theorem len_of_recvModified_zero {B : Botan} {cfg : Config} {flags : Flags} {m : Modifiers}
    {bytes : List UInt8} (hsize : bytes.length < 2 ^ 63) {pos : ℕ} {r : Received}
    (hneed : needsToModify cfg flags = true)
    (h : (recvModified B cfg flags m bytes pos 0).out = .ok r) (hrc : r.rc.code = true) :
    r.len = 2 ^ 64 - 1 := by
  simp only [recvModified, Traced.bind_eq_ok] at h
  obtain ⟨r₁, h₁, r₂, h₂, h₃⟩ := h
  cases hcipher : cfg.enableCipher && flags.enableCipher with
  | true =>
      simp only [hcipher, Received.stage, Result.ok_code, Bool.and_self, if_true,
        Received.cipher, Traced.bind_eq_ok, Cipher.onRecv_zero] at h₁
      obtain ⟨_, h₁, -⟩ := h₁
      cases h₁
  | false =>
      obtain rfl : (⟨.ok, m, bytes, 0⟩ : Received) = r₁ := by
        simpa [hcipher, Received.stage] using h₁
      cases hchecksum : cfg.enableChecksum && flags.enableChecksum with
      | true =>
          simp only [hchecksum, Received.stage, Result.ok_code, Bool.and_self, if_true,
            Received.checksum, Traced.bind_eq_ok] at h₂
          obtain ⟨⟨rc, len⟩, hrecv, h₂⟩ := h₂
          obtain rfl := Except.ok.inj h₂
          have hfail := Checksum.onRecv_zero B hsize pos hrecv
          simp only [Received.stage, hfail, Bool.false_and, Bool.false_eq_true, if_false,
            Traced.pure_out, Except.ok.injEq] at h₃
          rw [← h₃] at hrc
          simp [hfail] at hrc
      | false =>
          obtain rfl : (⟨.ok, m, bytes, 0⟩ : Received) = r₂ := by
            simpa [hchecksum, Received.stage] using h₂
          have hsequence : (cfg.enableSequence && flags.enableSequence) = true := by
            simpa [needsToModify, hcipher, hchecksum] using hneed
          simp only [hsequence, Received.stage, Result.ok_code, Bool.and_self, if_true,
            Received.sequencer, Traced.bind_eq_ok] at h₃
          obtain ⟨⟨rc, s', len⟩, hrecv, h₃⟩ := h₃
          obtain rfl := Except.ok.inj h₃
          exact Sequencer.onRecv_zero _ _ _ hrecv hrc

/-! ## When the rest of the buffer gets smaller -/

/-- A header with length zero and the topic of a class without modifiers,
whose unpack succeeds at the read cursor. -/
structure ZeroFrame (E : Env P) (st : LoopState P) (mp : P) : Prop where
  header : st.iter + headerLength ≤ st.recvBuf.size
  zero : st.msgLen = 0
  registered : E.factory (getTopic st.recvBuf.bytes (st.iter + 4)) = some mp
  plain : needsToModify E.cfg (E.ops.flags mp) = false
  unpacks : (unpackAt E mp st.recvBuf).ok = true

/-- The iteration goes on and the rest of the buffer stays the same. -/
theorem ZeroFrame.advances {st : LoopState P} {mp : P} (h : ZeroFrame E st mp) :
    ∃ st', Advances E st st' ∧ st'.remainedLen = st.remainedLen := by
  refine ⟨_, onRecvStep_eq_next.mpr ⟨mp, ⟨.ok, st.mods, st.recvBuf.bytes, st.msgLen⟩,
    ⟨h.header, ?_, ?_, h.registered⟩, recvModified_of_not_needed h.plain _ _ _ _, rfl,
    h.unpacks, ?_, rfl⟩, ?_⟩
  · rw [h.zero]
    exact Nat.zero_le _
  · have := h.header
    rw [h.zero]
    omega
  · rw [h.zero]
    exact Nat.zero_le _
  · simp [LoopState.remainedLen, ResizeBuffer.size, h.zero]

/-- Every other iteration that goes on makes the rest smaller. -/
theorem zeroFrame_of_advances {st st' : LoopState P} {size : ℕ} (hst : st.Inside size)
    (hsize : size < 2 ^ 63) (h : Advances E st st')
    (hrem : ¬ st'.remainedLen < st.remainedLen) : ∃ mp, ZeroFrame E st mp := by
  obtain ⟨mp, r, hadv⟩ := onRecvStep_eq_next.mp h
  have hst' := hadv.inside hst
  have hzero : st.msgLen = 0 := by
    simp only [LoopState.remainedLen, hst.size_eq, hst'.size_eq, hadv.iter_eq] at hrem
    omega
  have hreceived := hadv.received
  rw [hzero] at hreceived
  have hplain : needsToModify E.cfg (E.ops.flags mp) = false := by
    by_contra hneed
    -- with a modifier in force the reported length is beyond every cursor
    have hlen := len_of_recvModified_zero (hst.size_eq ▸ hsize : st.recvBuf.size < 2 ^ 63)
      (by simpa using hneed) hreceived hadv.accepted
    have hcursor := hst'.readPos_le
    have hsufficient := hadv.sufficient
    rw [hadv.after] at hcursor
    simp only [hlen] at hsufficient hcursor
    omega
  rw [recvModified_of_not_needed hplain] at hreceived
  obtain rfl := Except.ok.inj hreceived
  exact ⟨mp, hadv.admitted.header, hzero, hadv.admitted.registered, hplain, hadv.unpacked⟩

/-- `on_recv` makes finitely many iterations, because each one that goes on
leaves less of the buffer. -/
structure Ends (E : Env P) (proto : BitsProtocol) (bytes : List UInt8) : Prop where
  decreases : ∀ st st', Reached E proto bytes st → Advances E st st' →
    st'.remainedLen < st.remainedLen
  returns : ∃ fuel res, onRecv E fuel proto bytes = some res

/-- The receive loop, from any buffer that earlier calls may have left: it
ends unless it comes to a zero-length frame of a plain class. -/
theorem ends_iff (E : Env P) {proto : BitsProtocol} {bytes : List UInt8}
    (hcur : proto.recvBuf.readPos ≤ proto.recvBuf.size)
    (hsize : proto.recvBuf.size + bytes.length < 2 ^ 63) :
    Ends E proto bytes ↔ ∀ st mp, Reached E proto bytes st → ¬ ZeroFrame E st mp := by
  constructor
  · intro h st mp hreach hzero
    obtain ⟨st', hstep, hsame⟩ := hzero.advances
    have := h.decreases st st' hreach hstep
    omega
  · intro h
    have hdec : ∀ st st', Reached E proto bytes st → Advances E st st' →
        st'.remainedLen < st.remainedLen := by
      intro st st' hreach hstep
      by_contra hrem
      obtain ⟨mp, hzero⟩ := zeroFrame_of_advances (hreach.inside hcur) hsize hstep hrem
      exact h st mp hreach hzero
    refine ⟨hdec, ?_⟩
    by_cases hbytes : bytes = []
    · exact ⟨0, _, if_pos hbytes⟩
    · have hstart : Reached E proto bytes (proto.enter bytes) := ⟨hbytes, .refl⟩
      obtain ⟨fuel, res, hres⟩ := exists_onRecvLoop (hstart.inside hcur)
        (fun st₁ st₂ hr hs ↦ hdec st₁ st₂ ⟨hbytes, hr⟩ hs)
      refine ⟨fuel, (res.1, ⟨res.2.recvBuf, res.2.mods⟩, res.2.published), ?_⟩
      rw [onRecv, if_neg hbytes, hres, Option.map_some]

/-! ## A class without fields -/

/-- A message that carries its topic only, as `syn_begin_ready` does. -/
def beginReadyOps : PacketOps Unit where
  topic _ := 0x02010001
  flags _ := {}
  pack _ := ([], true)
  unpack _ _ := ⟨true, (), 0⟩
  used_le _ _ := Nat.zero_le _
  unpack_congr _ _ _ _ _ := rfl

def beginReadyEnv : Env Unit where
  ops := beginReadyOps
  botan := sampleBotan
  cfg := {}
  factory topic := if topic = 0x02010001 then some () else none

def beginReadyFrame : List UInt8 := [8, 0, 0, 0, 0x01, 0x00, 0x01, 0x02]

/-- Behind its one frame the iterator stands at the end of the buffer. -/
theorem reached_beginReady {st : LoopState Unit}
    (h : Reached beginReadyEnv .initial beginReadyFrame st) :
    st = BitsProtocol.initial.enter beginReadyFrame ∨ st.iter = 8 := by
  obtain ⟨hne, hreach⟩ := h
  induction hreach with
  | refl => exact .inl rfl
  | tail hr hstep ih =>
      obtain ⟨mp, r, hadv⟩ := onRecvStep_eq_next.mp hstep
      have hheader := hadv.admitted.header
      rw [(Reached.inside ⟨hne, hr⟩ (by decide)).size_eq] at hheader
      refine .inr ?_
      rw [hadv.iter_eq]
      rcases ih with rfl | hend
      · decide
      · simp [hend, headerLength, beginReadyFrame, ResizeBuffer.size,
          BitsProtocol.initial] at hheader

theorem ends_beginReady : Ends beginReadyEnv .initial beginReadyFrame := by
  refine (ends_iff beginReadyEnv (by decide) (by decide)).mpr ?_
  intro st mp hreach hzero
  have hheader := hzero.header
  rw [(hreach.inside (by decide)).size_eq] at hheader
  rcases reached_beginReady hreach with rfl | hend
  · exact absurd hzero.zero (by decide)
  · simp [hend, headerLength, beginReadyFrame, ResizeBuffer.size,
      BitsProtocol.initial] at hheader

/-- The same header with length zero: the loop publishes without end. -/
theorem not_ends_beginReady :
    (∀ fuel, onRecv beginReadyEnv fuel .initial [0, 0, 0, 0, 0x01, 0x00, 0x01, 0x02] = none) ∧
      ¬ Ends beginReadyEnv .initial [0, 0, 0, 0, 0x01, 0x00, 0x01, 0x02] := by
  have hloop : ∀ (fuel : ℕ) (st : LoopState Unit),
      st.recvBuf.bytes = [0, 0, 0, 0, 0x01, 0x00, 0x01, 0x02] → st.iter = 0 →
        onRecvLoop beginReadyEnv fuel st = none := by
    intro fuel
    induction fuel with
    | zero => exact fun _ _ _ ↦ rfl
    | succ fuel ih =>
        intro st hbytes hiter
        have hzero : ZeroFrame beginReadyEnv st () :=
          ⟨by rw [hiter, ResizeBuffer.size, hbytes]; decide,
            by rw [LoopState.msgLen, hbytes, hiter]; decide,
            by rw [hbytes, hiter]; decide, rfl, rfl⟩
        obtain ⟨st', hstep, -⟩ := hzero.advances
        obtain ⟨mp, r, hadv⟩ := onRecvStep_eq_next.mp hstep
        have hreceived := hadv.received
        rw [recvModified_of_not_needed rfl] at hreceived
        obtain rfl := Except.ok.inj hreceived
        rw [onRecvLoop_of_advances hstep]
        refine ih st' ?_ ?_
        · rw [hadv.after, hbytes]
        · rw [hadv.iter_eq, hiter, hzero.zero]
  have hnone : ∀ fuel, onRecv beginReadyEnv fuel .initial
      [0, 0, 0, 0, 0x01, 0x00, 0x01, 0x02] = none := by
    intro fuel
    rw [onRecv, if_neg (by decide), hloop fuel _ rfl rfl]
    rfl
  refine ⟨hnone, fun h ↦ ?_⟩
  obtain ⟨fuel, res, hres⟩ := h.returns
  rw [hnone fuel] at hres
  cases hres

end WiseKernel.Net
