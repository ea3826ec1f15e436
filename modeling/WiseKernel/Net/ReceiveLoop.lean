import Mathlib.Data.List.GetD
import Mathlib.Logic.Relation
import WiseKernel.Net.BitsProtocol
import WiseKernel.Net.ModifierSpec

/-!
# Steps and runs of the receive loop

What one iteration of `on_recv` can do, the states a call reaches, and how the
loop with fuel follows them.  The later modules cite the step lemmas and never
unfold the loop.
-/

namespace WiseKernel.Net

open WiseKernel.Lib

/-! ## Header fields -/

theorem fieldBytes_eq (v : ℕ) : fieldBytes v = leBytes 4 v := by
  have hbyte : ∀ x : ℕ, UInt8.ofNat (x &&& 0xFF) = UInt8.ofNat x := by
    intro x
    apply UInt8.toNat_inj.mp
    rw [UInt8.toNat_ofNat', UInt8.toNat_ofNat', show 0xFF = 2 ^ 8 - 1 from rfl,
      Nat.and_two_pow_sub_one_eq_mod, Nat.mod_mod]
  simp only [fieldBytes, leBytes, hbyte, Nat.shiftRight_eq_div_pow, Nat.div_div_eq_div_mul]

theorem fieldValue_eq (bytes : List UInt8) (pos : ℕ) :
    fieldValue bytes pos = leValue [bytes.getD pos 0, bytes.getD (pos + 1) 0,
      bytes.getD (pos + 2) 0, bytes.getD (pos + 3) 0] := by
  have hor : ∀ a b i : ℕ, a < 2 ^ i → a ||| b <<< i = a + b * 2 ^ i := by
    intro a b i h
    rw [Nat.or_comm, ← Nat.shiftLeft_add_eq_or_of_lt h, Nat.shiftLeft_eq, Nat.add_comm]
  have h₀ := (bytes.getD pos 0).toNat_lt
  have h₁ := (bytes.getD (pos + 1) 0).toNat_lt
  have h₂ := (bytes.getD (pos + 2) 0).toNat_lt
  simp only [fieldValue, leValue, Nat.add_zero]
  rw [hor _ _ 8 h₀, hor _ _ 16 (by omega), hor _ _ 24 (by omega)]
  ring

theorem fieldValue_lt (bytes : List UInt8) (pos : ℕ) : fieldValue bytes pos < 2 ^ 32 := by
  have hlt := leValue_lt [bytes.getD pos 0, bytes.getD (pos + 1) 0, bytes.getD (pos + 2) 0,
    bytes.getD (pos + 3) 0]
  rw [← fieldValue_eq] at hlt
  simpa using hlt

/-- A field inside one piece of a buffer is read from that piece. -/
theorem fieldValue_append (pre xs post : List UInt8) {k : ℕ} (h : k + 4 ≤ xs.length) :
    fieldValue (pre ++ xs ++ post) (pre.length + k) = fieldValue xs k := by
  have hget : ∀ i < 4, (pre ++ xs ++ post).getD (pre.length + k + i) 0 = xs.getD (k + i) 0 := by
    intro i hi
    rw [List.append_assoc, List.getD_append_right _ _ _ _ (by omega), Nat.add_assoc,
      Nat.add_sub_cancel_left, List.getD_append _ _ _ _ (by omega)]
  have h0 := hget 0 (by decide)
  rw [Nat.add_zero, Nat.add_zero] at h0
  rw [fieldValue_eq, fieldValue_eq, h0, hget 1 (by decide), hget 2 (by decide),
    hget 3 (by decide)]

/-- A field that was stored is read back, cut to 32 bits. -/
theorem fieldValue_fieldBytes (pre : List UInt8) (v : ℕ) (post : List UInt8) {pos : ℕ}
    (hpos : pos = pre.length) :
    fieldValue (pre ++ fieldBytes v ++ post) pos = v % 2 ^ 32 := by
  subst hpos
  have hpiece := fieldValue_append pre (fieldBytes v) post (show 0 + 4 ≤ (fieldBytes v).length from
    Nat.le_refl 4)
  have hvalue := leValue_leBytes 4 v
  rw [← fieldBytes_eq] at hvalue
  rw [Nat.add_zero] at hpiece
  rw [hpiece, fieldValue_eq, show 2 ^ 32 = 256 ^ 4 by norm_num, ← hvalue]
  rfl

/-! ## The modifiers keep the size of the buffer -/

theorem length_of_writeAt {bytes xs bytes' : List UInt8} {pos : ℕ}
    (h : (writeAt bytes pos xs).out = .ok bytes') : bytes'.length = bytes.length := by
  simp only [writeAt, Traced.bind_eq_ok, Traced.emit_out] at h
  obtain ⟨-, -, h⟩ := h
  split_ifs at h with hle
  · obtain rfl := Except.ok.inj h
    exact length_overwrite hle
  · simp at h

theorem Cipher.length_of_processInPlace {mode : CipherMode} {c : CipherImpl}
    {bytes blocks bytes' : List UInt8} {pos len : ℕ}
    (h : (Cipher.processInPlace mode c bytes pos len).out = .ok (blocks, bytes')) :
    bytes'.length = bytes.length := by
  unfold Cipher.processInPlace at h
  split_ifs at h
  · obtain ⟨-, rfl⟩ := Prod.mk.inj (Except.ok.inj h)
    rfl
  · simp at h
  · simp only [Traced.bind_eq_ok, Traced.pure_out] at h
    obtain ⟨x, -, written, hwrite, h⟩ := h
    obtain ⟨-, rfl⟩ := Prod.mk.inj (Except.ok.inj h)
    exact length_of_writeAt hwrite

theorem Cipher.length_of_onRecv {B : Botan} {interval hlen : ℕ} {c c' : CipherImpl}
    {bytes bytes' : List UInt8} {pos len len' : ℕ}
    (h : (Cipher.onRecv B interval hlen c bytes pos len).out = .ok (c', bytes', len')) :
    bytes'.length = bytes.length := by
  rw [Cipher.onRecv, Traced.bind_eq_ok] at h
  obtain ⟨payloadSize, -, h⟩ := h
  split_ifs at h with hzero
  · obtain ⟨-, rfl, -⟩ := by simpa using h
    rfl
  · simp only [Traced.bind_eq_ok] at h
    obtain ⟨_, -, _, -, _, -, ⟨blocks, after⟩, hprocess, last, -, h⟩ := h
    cases hfin : B.decryption.finish c.key c.nonce blocks last with
    | none => simp [hfin] at h
    | some plain =>
        simp only [hfin, Traced.bind_eq_ok] at h
        obtain ⟨written, hwrite, _, -, _, -, _, -, _, -, _, -, _, -, h⟩ := h
        obtain ⟨-, rfl, -⟩ := by simpa using h
        rw [length_of_writeAt hwrite, Cipher.length_of_processInPlace hprocess]

theorem Received.length_of_stage {on : Bool} {f : Received → Run Received} {r r' : Received}
    (hf : (f r).out = .ok r' → r'.bytes.length = r.bytes.length)
    (h : (Received.stage on f r).out = .ok r') : r'.bytes.length = r.bytes.length := by
  unfold Received.stage at h
  split_ifs at h
  · exact hf h
  · obtain rfl := Except.ok.inj h
    rfl

theorem length_of_recvModified {B : Botan} {cfg : Config} {flags : Flags} {m : Modifiers}
    {bytes : List UInt8} {pos len : ℕ} {r : Received}
    (h : (recvModified B cfg flags m bytes pos len).out = .ok r) :
    r.bytes.length = bytes.length := by
  simp only [recvModified, Traced.bind_eq_ok] at h
  obtain ⟨r₁, h₁, r₂, h₂, h₃⟩ := h
  have hcipher : r₁.bytes.length = bytes.length := by
    refine Received.length_of_stage (fun hrun ↦ ?_) h₁
    simp only [Received.cipher, Traced.bind_eq_ok, Traced.pure_out] at hrun
    obtain ⟨⟨c, after, newLen⟩, hrecv, hrun⟩ := hrun
    obtain rfl := Except.ok.inj hrun
    exact Cipher.length_of_onRecv hrecv
  have hchecksum : r₂.bytes.length = r₁.bytes.length := by
    refine Received.length_of_stage (fun hrun ↦ ?_) h₂
    simp only [Received.checksum, Traced.bind_eq_ok, Traced.pure_out] at hrun
    obtain ⟨x, -, hrun⟩ := hrun
    obtain rfl := Except.ok.inj hrun
    rfl
  have hsequencer : r.bytes.length = r₂.bytes.length := by
    refine Received.length_of_stage (fun hrun ↦ ?_) h₃
    simp only [Received.sequencer, Traced.bind_eq_ok, Traced.pure_out] at hrun
    obtain ⟨x, -, hrun⟩ := hrun
    obtain rfl := Except.ok.inj hrun
    rfl
  rw [hsequencer, hchecksum, hcipher]

/-- Where no modifier is in force the frame is passed on as it is. -/
theorem recvModified_of_not_needed {B : Botan} {cfg : Config} {flags : Flags}
    (h : needsToModify cfg flags = false) (m : Modifiers) (bytes : List UInt8) (pos len : ℕ) :
    (recvModified B cfg flags m bytes pos len).out = .ok ⟨.ok, m, bytes, len⟩ := by
  simp only [needsToModify, Bool.or_eq_false_iff] at h
  obtain ⟨⟨hcipher, hchecksum⟩, hsequence⟩ := h
  simp only [recvModified, Received.stage, hcipher, hchecksum, hsequence, Bool.and_false]
  rfl

/-! ## One iteration -/

section

variable {P : Type} {E : Env P}

def LoopState.msgLen (st : LoopState P) : ℕ := getLength st.recvBuf.bytes st.iter

/-- A complete frame of a registered class stands at the iterator and its
length is admitted. -/
structure Admitted (E : Env P) (st : LoopState P) (mp : P) : Prop where
  header : st.iter + headerLength ≤ st.recvBuf.size
  admitted : st.msgLen ≤ E.cfg.maxPacketLength
  complete : st.iter + st.msgLen ≤ st.recvBuf.size
  registered : E.factory (getTopic st.recvBuf.bytes (st.iter + 4)) = some mp

/-- The read cursor behind the two reads that skip the header. -/
def ResizeBuffer.bodyPos (b : ResizeBuffer) : ℕ := ((b.read 4).2.2.read 4).2.2.readPos

theorem ResizeBuffer.bodyPos_of_le {b : ResizeBuffer}
    (h : b.readPos + headerLength ≤ b.size) : b.bodyPos = b.readPos + headerLength := by
  simp only [headerLength] at h ⊢
  have hfirst : b.read 4 = (true, window b.bytes b.readPos 4, ⟨b.bytes, b.readPos + 4⟩) :=
    read_of_le (by omega)
  have hsecond : (⟨b.bytes, b.readPos + 4⟩ : ResizeBuffer).readPos + 4 ≤
      (⟨b.bytes, b.readPos + 4⟩ : ResizeBuffer).size := by
    change b.readPos + 4 + 4 ≤ b.size
    omega
  rw [bodyPos, hfirst, read_of_le hsecond]

theorem ResizeBuffer.bodyPos_le {b : ResizeBuffer} (h : b.readPos ≤ b.size) :
    b.bodyPos ≤ b.size :=
  readPos_read_le (by simp [size]) (readPos_read_le (Nat.le_refl _) h 4) 4

/-- What the unpack of an iteration sees and returns. -/
def unpackAt (E : Env P) (mp : P) (buf : ResizeBuffer) : Unpacked P :=
  E.ops.unpack mp (buf.bytes.drop buf.bodyPos)

/-- The iterator has moved by the length field, although the step is computed
with a subtraction that may wrap. -/
theorem iter_advance (iter : ℕ) {msgLen : ℕ} (h : msgLen < 2 ^ 32) :
    ((iter : ℤ) + headerLength + toPtrdiff (subSize msgLen headerLength)).toNat =
      iter + msgLen := by
  by_cases hle : headerLength ≤ msgLen
  · simp only [subSize, if_pos hle, toPtrdiff]
    simp only [headerLength] at hle ⊢
    split_ifs <;> omega
  · simp only [subSize, if_neg hle, toPtrdiff]
    simp only [headerLength] at hle ⊢
    split_ifs <;> omega

theorem deliver_eq (st : LoopState P) (mp : P) {msgLen : ℕ} (h : msgLen < 2 ^ 32)
    (r : Received) {buf : ResizeBuffer} (hbuf : buf = { st.recvBuf with bytes := r.bytes }) :
    deliver E st mp msgLen r =
      let u := unpackAt E mp buf
      let st' := { st with recvBuf := ⟨r.bytes, buf.bodyPos + u.used⟩, mods := r.mods }
      if buf.bodyPos + u.used < r.len then
        .stop (.returned (.fail .failInsufficientUnpack)) st'
      else if u.ok = false then .stop (.returned (.fail .failBitsUnpackError)) st'
      else .next { st' with
        published := st.published ++ [u.packet]
        processedLen := st.processedLen + msgLen
        iter := st.iter + msgLen } := by
  subst hbuf
  set buf : ResizeBuffer := { st.recvBuf with bytes := r.bytes } with hbuf
  have hskip : ((buf.read 4).2.2.read 4).2.2 = ⟨r.bytes, buf.bodyPos⟩ := by
    have hbytes : ((buf.read 4).2.2.read 4).2.2.bytes = r.bytes := by simp [hbuf]
    rw [ResizeBuffer.bodyPos, ← hbytes]
  simp only [deliver, ← hbuf, hskip, iter_advance st.iter h, unpackAt]
  rfl

/-- Everything an iteration that goes on has found and done. -/
structure Advance (E : Env P) (st st' : LoopState P) (mp : P) (r : Received) : Prop where
  admitted : Admitted E st mp
  received : (recvModified E.botan E.cfg (E.ops.flags mp) st.mods st.recvBuf.bytes
    st.processedLen st.msgLen).out = .ok r
  accepted : r.rc.code = true
  unpacked : (unpackAt E mp ⟨r.bytes, st.recvBuf.readPos⟩).ok = true
  sufficient : r.len ≤ ResizeBuffer.bodyPos ⟨r.bytes, st.recvBuf.readPos⟩ +
    (unpackAt E mp ⟨r.bytes, st.recvBuf.readPos⟩).used
  after : st' = {
    recvBuf := ⟨r.bytes, ResizeBuffer.bodyPos ⟨r.bytes, st.recvBuf.readPos⟩ +
      (unpackAt E mp ⟨r.bytes, st.recvBuf.readPos⟩).used⟩
    mods := r.mods
    iter := st.iter + st.msgLen
    processedLen := st.processedLen + st.msgLen
    published := st.published ++ [(unpackAt E mp ⟨r.bytes, st.recvBuf.readPos⟩).packet] }

theorem Advance.iter_eq {st st' : LoopState P} {mp : P} {r : Received}
    (h : Advance E st st' mp r) : st'.iter = st.iter + st.msgLen := by
  rw [h.after]

theorem onRecvStep_of_admitted {st : LoopState P} {mp : P} (h : Admitted E st mp) :
    onRecvStep E st =
      match (recvModified E.botan E.cfg (E.ops.flags mp) st.mods st.recvBuf.bytes
          st.processedLen st.msgLen).out with
      | .error a => .stop (.aborted a) st
      | .ok r =>
          if r.rc.code = false then
            .stop (.returned r.rc) { st with recvBuf.bytes := r.bytes, mods := r.mods }
          else deliver E st mp st.msgLen r := by
  have hheader : leSize headerLength st.remainedLen := by
    have := h.header
    simp only [leSize, LoopState.remainedLen]
    omega
  have hlen : ¬ E.cfg.maxPacketLength < getLength st.recvBuf.bytes st.iter :=
    Nat.not_lt.mpr h.admitted
  have hcomplete : ¬ st.remainedLen < getLength st.recvBuf.bytes st.iter := by
    have := h.complete
    simp only [LoopState.remainedLen, LoopState.msgLen] at this ⊢
    omega
  simp only [onRecvStep, hheader, not_true, if_false, hlen, hcomplete, h.registered]
  rfl

/-- An iteration that reaches the modifiers has an admitted frame before it. -/
theorem admitted_of_next {st st' : LoopState P} (h : onRecvStep E st = .next st') :
    ∃ mp, Admitted E st mp := by
  unfold onRecvStep at h
  split_ifs at h with hheader
  dsimp only at h
  split_ifs at h with hlen hrem
  cases hmp : E.factory (getTopic st.recvBuf.bytes (st.iter + 4)) with
  | none => simp [hmp] at h
  | some mp =>
      simp only [LoopState.remainedLen, leSize, headerLength] at hheader hrem
      refine ⟨mp, ?_, Nat.not_lt.mp hlen, ?_, hmp⟩
      · simp only [headerLength]
        omega
      · simp only [LoopState.msgLen]
        omega

theorem onRecvStep_eq_next {st st' : LoopState P} :
    onRecvStep E st = .next st' ↔ ∃ mp r, Advance E st st' mp r := by
  have hlt : st.msgLen < 2 ^ 32 := fieldValue_lt _ _
  constructor
  · intro h
    obtain ⟨mp, hmp⟩ := admitted_of_next h
    rw [onRecvStep_of_admitted hmp] at h
    split at h
    · cases h
    · rename_i r hr
      split_ifs at h with hrc
      rw [deliver_eq st mp hlt r rfl] at h
      dsimp only at h
      split_ifs at h with hshort hok
      exact ⟨mp, r, hmp, hr, by simpa using hrc, by simpa using hok, Nat.not_lt.mp hshort,
        (Step.next.inj h).symm⟩
  · rintro ⟨mp, r, h⟩
    rw [onRecvStep_of_admitted h.admitted, h.received]
    simp only [h.accepted, Bool.true_eq_false, if_false]
    rw [deliver_eq st mp hlt r rfl]
    simp only [h.unpacked, Bool.true_eq_false, if_false, if_neg (Nat.not_lt.mpr h.sufficient),
      h.after]

/-! ## Runs of the loop -/

def Advances (E : Env P) (st st' : LoopState P) : Prop := onRecvStep E st = .next st'

/-- The states at the head of the loop in one call of `on_recv`. -/
def Reached (E : Env P) (proto : BitsProtocol) (bytes : List UInt8) (st : LoopState P) : Prop :=
  bytes ≠ [] ∧ Relation.ReflTransGen (Advances E) (proto.enter bytes) st

theorem onRecvLoop_of_advances {st st' : LoopState P} (h : Advances E st st') (fuel : ℕ) :
    onRecvLoop E (fuel + 1) st = onRecvLoop E fuel st' := by
  rw [onRecvLoop, show onRecvStep E st = .next st' from h]

/-- More fuel does not change a result. -/
theorem onRecvLoop_mono {st : LoopState P} {fuel fuel' : ℕ} {res : Exit × LoopState P}
    (hle : fuel ≤ fuel') (h : onRecvLoop E fuel st = some res) :
    onRecvLoop E fuel' st = some res := by
  induction fuel generalizing st fuel' with
  | zero => cases h
  | succ fuel ih =>
      obtain ⟨fuel', rfl⟩ : ∃ n, fuel' = n + 1 := ⟨fuel' - 1, by omega⟩
      rw [onRecvLoop] at h ⊢
      cases hstep : onRecvStep E st with
      | leave => simpa [hstep] using h
      | stop e st' => simpa [hstep] using h
      | next st' =>
          rw [hstep] at h
          exact ih (by omega) h

theorem onRecvLoop_of_reached {st st' : LoopState P}
    (h : Relation.ReflTransGen (Advances E) st st') {fuel : ℕ} {res : Exit × LoopState P}
    (hres : onRecvLoop E fuel st' = some res) : ∃ n, onRecvLoop E n st = some res := by
  induction h using Relation.ReflTransGen.head_induction_on with
  | refl => exact ⟨fuel, hres⟩
  | head hstep _ ih =>
      obtain ⟨n, hn⟩ := ih
      exact ⟨n + 1, by rw [onRecvLoop_of_advances hstep, hn]⟩

/-- The cursor that unpack leaves is inside the buffer. -/
theorem bodyPos_add_used_le (mp : P) {bytes : List UInt8} {readPos : ℕ}
    (h : readPos ≤ bytes.length) :
    ResizeBuffer.bodyPos ⟨bytes, readPos⟩ + (unpackAt E mp ⟨bytes, readPos⟩).used ≤
      bytes.length := by
  have hpos : ResizeBuffer.bodyPos ⟨bytes, readPos⟩ ≤ bytes.length :=
    ResizeBuffer.bodyPos_le (b := ⟨bytes, readPos⟩) h
  have hused := E.ops.used_le mp (bytes.drop (ResizeBuffer.bodyPos ⟨bytes, readPos⟩))
  rw [List.length_drop] at hused
  simp only [unpackAt]
  omega

/-- Both the iterator and the cursor stay inside the buffer, whose size does
not change. -/
structure LoopState.Inside (size : ℕ) (st : LoopState P) : Prop where
  size_eq : st.recvBuf.size = size
  iter_le : st.iter ≤ size
  readPos_le : st.recvBuf.readPos ≤ size

theorem Advance.inside {st st' : LoopState P} {mp : P} {r : Received} {size : ℕ}
    (h : Advance E st st' mp r) (hst : st.Inside size) : st'.Inside size := by
  obtain ⟨hsize, hiter, hread⟩ := hst
  have hbytes : r.bytes.length = size := by
    rw [length_of_recvModified h.received]
    exact hsize
  rw [h.after]
  refine ⟨hbytes, ?_, ?_⟩
  · have := h.admitted.complete
    change st.iter + st.msgLen ≤ size
    omega
  · rw [← hbytes] at hread ⊢
    exact bodyPos_add_used_le mp hread

theorem Reached.inside {proto : BitsProtocol} {bytes : List UInt8} {st : LoopState P}
    (h : Reached E proto bytes st) (hcur : proto.recvBuf.readPos ≤ proto.recvBuf.size) :
    st.Inside (proto.recvBuf.size + bytes.length) := by
  obtain ⟨-, hreach⟩ := h
  induction hreach with
  | refl =>
      refine ⟨by simp [BitsProtocol.enter, ResizeBuffer.size], Nat.zero_le _, ?_⟩
      change proto.recvBuf.readPos ≤ _
      omega
  | tail _ hstep ih =>
      obtain ⟨mp, r, hadv⟩ := onRecvStep_eq_next.mp hstep
      exact hadv.inside ih

theorem readPos_le_of_stop {st st' : LoopState P} {e : Exit}
    (h : onRecvStep E st = .stop e st') (hst : st.recvBuf.readPos ≤ st.recvBuf.size) :
    st'.recvBuf.readPos ≤ st'.recvBuf.size := by
  unfold onRecvStep at h
  split_ifs at h
  dsimp only at h
  split_ifs at h
  · obtain ⟨-, rfl⟩ := Step.stop.inj h
    exact hst
  · split at h
    · obtain ⟨-, rfl⟩ := Step.stop.inj h
      exact hst
    · split at h
      · obtain ⟨-, rfl⟩ := Step.stop.inj h
        exact hst
      · rename_i mp _ _ r hr
        have hlen := length_of_recvModified hr
        have hle : st.recvBuf.readPos ≤ r.bytes.length := by
          rw [hlen]
          exact hst
        split_ifs at h
        · obtain ⟨-, rfl⟩ := Step.stop.inj h
          exact hle
        · have hlt : getLength st.recvBuf.bytes st.iter < 2 ^ 32 := fieldValue_lt _ _
          rw [deliver_eq st mp hlt r rfl] at h
          dsimp only at h
          split_ifs at h <;>
          · obtain ⟨-, rfl⟩ := Step.stop.inj h
            exact bodyPos_add_used_le mp hle

/-- Every call leaves the cursor inside the buffer. -/
theorem readPos_le_of_onRecv {fuel : ℕ} {proto proto' : BitsProtocol} {bytes : List UInt8}
    {e : Exit} {ps : List P} (h : onRecv E fuel proto bytes = some (e, proto', ps))
    (hcur : proto.recvBuf.readPos ≤ proto.recvBuf.size) :
    proto'.recvBuf.readPos ≤ proto'.recvBuf.size := by
  have hloop : ∀ (fuel : ℕ) (st st' : LoopState P), onRecvLoop E fuel st = some (e, st') →
      st.Inside st.recvBuf.size → st'.recvBuf.readPos ≤ st'.recvBuf.size := by
    intro fuel
    induction fuel with
    | zero => exact fun _ _ h _ ↦ by cases h
    | succ fuel ih =>
        intro st st' h hst
        rw [onRecvLoop] at h
        cases hstep : onRecvStep E st with
        | next st₁ =>
            obtain ⟨mp, r, hadv⟩ := onRecvStep_eq_next.mp hstep
            have hst₁ := hadv.inside hst
            rw [hstep] at h
            exact ih st₁ st' h (hst₁.size_eq ▸ hst₁)
        | stop e₁ st₁ =>
            obtain ⟨-, rfl⟩ : e₁ = e ∧ st₁ = st' := by simpa [hstep] using h
            exact readPos_le_of_stop hstep hst.readPos_le
        | leave =>
            simp only [hstep] at h
            split at h
            · obtain ⟨-, rfl⟩ : .aborted .thrown = e ∧ st = st' := by simpa using h
              exact hst.readPos_le
            · rename_i buf hbuf
              obtain ⟨-, rfl⟩ : .returned .ok = e ∧ { st with recvBuf := buf } = st' := by
                simpa using h
              split_ifs at hbuf
              · exact ResizeBuffer.readPos_popFront_le hbuf hst.readPos_le
              · obtain rfl := Option.some.inj hbuf
                exact hst.readPos_le
  unfold onRecv at h
  split_ifs at h with hbytes
  · obtain ⟨-, rfl, -⟩ : .returned (.fail .failZeroSizeData) = e ∧ proto = proto' ∧ [] = ps := by
      simpa using h
    exact hcur
  · obtain ⟨⟨e', st'⟩, hrun, h⟩ := Option.map_eq_some_iff.mp h
    obtain ⟨rfl, rfl, -⟩ : e' = e ∧ ⟨st'.recvBuf, st'.mods⟩ = proto' ∧ st'.published = ps := by
      simpa using h
    have hstart : Reached E proto bytes (proto.enter bytes) := ⟨hbytes, .refl⟩
    have hin := hstart.inside hcur
    exact hloop fuel _ st' hrun (hin.size_eq ▸ hin)

/-- A loop whose iterations all make the rest smaller ends. -/
theorem exists_onRecvLoop {st : LoopState P} {size : ℕ} (hst : st.Inside size)
    (hdec : ∀ st₁ st₂, Relation.ReflTransGen (Advances E) st st₁ → Advances E st₁ st₂ →
      st₂.remainedLen < st₁.remainedLen) :
    ∃ fuel res, onRecvLoop E fuel st = some res := by
  induction hn : size - st.iter using Nat.strong_induction_on generalizing st with
  | _ n ih =>
      cases hstep : onRecvStep E st with
      | leave =>
          refine ⟨1, ?_⟩
          rw [onRecvLoop, hstep]
          dsimp only
          split <;> exact ⟨_, rfl⟩
      | stop e st' => exact ⟨1, (e, st'), by rw [onRecvLoop, hstep]⟩
      | next st' =>
          obtain ⟨mp, r, hadv⟩ := onRecvStep_eq_next.mp hstep
          have hst' := hadv.inside hst
          have hlt := hdec st st' .refl hstep
          simp only [LoopState.remainedLen, hst.size_eq, hst'.size_eq] at hlt
          obtain ⟨fuel, res, hres⟩ := ih (size - st'.iter)
            (by have := hst.iter_le; have := hst'.iter_le; omega) hst'
            (fun st₁ st₂ hr hs ↦ hdec st₁ st₂ (.head hstep hr) hs) rfl
          exact ⟨fuel + 1, res, by rw [onRecvLoop_of_advances hstep, hres]⟩

end

end WiseKernel.Net
