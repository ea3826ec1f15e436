import WiseKernel.Net.Session
import WiseKernel.Net.ReceiveLoop

/-!
# Are frames isolated from one another?

`unpack` is bounded by the whole buffer and the short-read test compares the
cursor of the buffer with the length of one frame.  So a frame is treated by
its own bytes exactly when unpack stays inside it and when a short read is
seen, which depends on where the frame stands.
-/

namespace WiseKernel.Net

open WiseKernel.Lib

variable {P : Type} {E : Env P}

/-! ## Sessions -/

/-- The states at the head of the receive loop over a whole session: calls
that return success follow each other, and every iteration that was taken
satisfies `Q`. -/
inductive SessionReached (E : Env P) (Q : LoopState P → Prop) : LoopState P → Prop
  | first {bytes : List UInt8} : bytes ≠ [] →
      SessionReached E Q (BitsProtocol.initial.enter bytes)
  | step {st st' : LoopState P} : SessionReached E Q st → Q st → Advances E st st' →
      SessionReached E Q st'
  | call {st : LoopState P} {buf : ResizeBuffer} {bytes : List UInt8} :
      SessionReached E Q st → onRecvStep E st = .leave →
        (if 0 < st.processedLen then st.recvBuf.popFront st.processedLen
          else some st.recvBuf) = some buf →
        bytes ≠ [] → SessionReached E Q (BitsProtocol.enter ⟨buf, st.mods⟩ bytes)

/-- A frame that is delivered is consumed to its last byte on the wire. -/
def Exact (E : Env P) (st : LoopState P) : Prop :=
  ∀ st' mp r, Advance E st st' mp r →
    headerLength + (unpackAt E mp ⟨r.bytes, st.recvBuf.readPos⟩).used = st.msgLen

/-- Iterator, processed length and read cursor are one position. -/
structure LoopState.Aligned (st : LoopState P) : Prop where
  cursor : st.recvBuf.readPos = st.iter
  processed : st.processedLen = st.iter
  inside : st.iter ≤ st.recvBuf.size

theorem aligned_enter {buf : ResizeBuffer} (h : buf.readPos = 0) (mods : Modifiers)
    (bytes : List UInt8) :
    (BitsProtocol.enter ⟨buf, mods⟩ bytes : LoopState P).Aligned :=
  ⟨h, rfl, Nat.zero_le _⟩

theorem Advance.aligned {st st' : LoopState P} {mp : P} {r : Received}
    (h : Advance E st st' mp r) (hst : st.Aligned)
    (hexact : headerLength + (unpackAt E mp ⟨r.bytes, st.recvBuf.readPos⟩).used = st.msgLen) :
    st'.Aligned := by
  have hlen : r.bytes.length = st.recvBuf.size := length_of_recvModified h.received
  have hpos : ResizeBuffer.bodyPos ⟨r.bytes, st.recvBuf.readPos⟩ = st.iter + headerLength := by
    rw [ResizeBuffer.bodyPos_of_le, hst.cursor]
    change st.recvBuf.readPos + headerLength ≤ r.bytes.length
    rw [hlen, hst.cursor]
    exact h.admitted.header
  rw [h.after]
  refine ⟨?_, ?_, ?_⟩
  · change ResizeBuffer.bodyPos _ + _ = st.iter + st.msgLen
    omega
  · change st.processedLen + st.msgLen = st.iter + st.msgLen
    rw [hst.processed]
  · change st.iter + st.msgLen ≤ r.bytes.length
    rw [hlen]
    exact h.admitted.complete

/-- When every frame before was consumed exactly, the three positions agree at
every frame of every call. -/
theorem SessionReached.aligned {st : LoopState P} (h : SessionReached E (Exact E) st) :
    st.Aligned := by
  induction h with
  | first => exact aligned_enter rfl _ _
  | step _ hexact hstep ih =>
      obtain ⟨mp, r, hadv⟩ := onRecvStep_eq_next.mp hstep
      exact hadv.aligned ih (hexact _ mp r hadv)
  | call _ _ hpop _ ih =>
      refine aligned_enter ?_ _ _
      split_ifs at hpop with hpos
      · have hread := ih.cursor.trans ih.processed.symm
        have hsize := ih.inside
        rw [← ih.processed] at hsize
        rw [ResizeBuffer.popFront, if_neg (by omega), if_neg (by omega)] at hpop
        obtain rfl := Option.some.inj hpop
        simp [hread]
      · obtain rfl := Option.some.inj hpop
        rw [ih.cursor, ← ih.processed]
        omega

/-! ## One frame -/

def LoopState.body (st : LoopState P) : List UInt8 :=
  window st.recvBuf.bytes (st.iter + headerLength) (st.msgLen - headerLength)

/-- The frame at the iterator is judged by its own body: it is published when
unpack succeeds on the body alone and uses all of it, and otherwise the call
returns an error.  In both cases the cursor stays inside the frame. -/
def Isolated (E : Env P) (st : LoopState P) (mp : P) : Prop :=
  let u := E.ops.unpack mp st.body
  if u.ok = true ∧ u.used = st.body.length then
    ∃ st', onRecvStep E st = .next st' ∧ st'.published = st.published ++ [u.packet] ∧
      st'.recvBuf.readPos ≤ st.iter + st.msgLen
  else
    ∃ rc st', onRecvStep E st = .stop (.returned rc) st' ∧ rc.code = false ∧
      st'.published = st.published ∧ st'.recvBuf.readPos ≤ st.iter + st.msgLen

/-- Unpack, which sees the rest of the buffer, stays inside the frame, and a
frame that it does not use up stands so near the front of the buffer that the
short-read test sees it. -/
structure Contained (E : Env P) (st : LoopState P) (mp : P) : Prop where
  stays : headerLength + (unpackAt E mp st.recvBuf).used ≤ st.msgLen
  seen : (unpackAt E mp st.recvBuf).ok = true →
    headerLength + (unpackAt E mp st.recvBuf).used < st.msgLen →
      st.recvBuf.readPos + headerLength + (unpackAt E mp st.recvBuf).used < st.msgLen

theorem LoopState.Aligned.bodyPos_eq {st : LoopState P} (hst : st.Aligned) {mp : P}
    (hmp : Admitted E st mp) : st.recvBuf.bodyPos = st.iter + headerLength := by
  rw [ResizeBuffer.bodyPos_of_le, hst.cursor]
  rw [hst.cursor]
  exact hmp.header

theorem onRecvStep_of_plain {st : LoopState P} {mp : P} (hmp : Admitted E st mp)
    (hplain : needsToModify E.cfg (E.ops.flags mp) = false) (hst : st.Aligned) :
    onRecvStep E st =
      let u := unpackAt E mp st.recvBuf
      let st' := { st with recvBuf.readPos := st.iter + headerLength + u.used }
      if st.iter + headerLength + u.used < st.msgLen then
        .stop (.returned (.fail .failInsufficientUnpack)) st'
      else if u.ok = false then .stop (.returned (.fail .failBitsUnpackError)) st'
      else .next { st' with
        published := st.published ++ [u.packet]
        processedLen := st.processedLen + st.msgLen
        iter := st.iter + st.msgLen } := by
  have hlt : st.msgLen < 2 ^ 32 := fieldValue_lt _ _
  have hpos := hst.bodyPos_eq hmp
  rw [onRecvStep_of_admitted hmp, recvModified_of_not_needed hplain]
  simp only [Result.ok_code, Bool.true_eq_false, if_false]
  rw [deliver_eq st mp hlt _ (Eq.refl st.recvBuf)]
  simp only [hpos]

/-- Unpack on the body alone, compared with unpack on the rest of the buffer. -/
theorem unpack_body {st : LoopState P} {mp : P} (hmp : Admitted E st mp)
    (hlen : headerLength ≤ st.msgLen) (hst : st.Aligned) :
    st.body.length = st.msgLen - headerLength ∧
    ((E.ops.unpack mp st.body).ok = true →
      unpackAt E mp st.recvBuf = E.ops.unpack mp st.body) ∧
    ((unpackAt E mp st.recvBuf).ok = true →
      headerLength + (unpackAt E mp st.recvBuf).used ≤ st.msgLen →
        E.ops.unpack mp st.body = unpackAt E mp st.recvBuf) := by
  have hpos := hst.bodyPos_eq hmp
  have hbody : st.body = (st.recvBuf.bytes.drop st.recvBuf.bodyPos).take
      (st.msgLen - headerLength) := by
    rw [hpos]
    rfl
  have hlength : st.body.length = st.msgLen - headerLength := by
    have := hmp.complete
    refine length_window ?_
    change _ ≤ st.recvBuf.size
    omega
  have htake : ∀ n ≤ st.msgLen - headerLength,
      (st.recvBuf.bytes.drop st.recvBuf.bodyPos).take n = st.body.take n := by
    intro n hn
    rw [hbody, List.take_take, Nat.min_eq_left hn]
  refine ⟨hlength, fun hok ↦ ?_, fun hok hused ↦ ?_⟩
  · have hused := E.ops.used_le mp st.body
    exact E.ops.unpack_congr mp st.body _ hok (htake _ (by omega))
  · refine E.ops.unpack_congr mp _ st.body hok ?_
    simp only [unpackAt] at hused ⊢
    exact (htake _ (by omega)).symm

/-- Isolation of a plain frame, anywhere in a session in which every frame
before it was consumed exactly. -/
theorem isolated_iff {st : LoopState P} (h : SessionReached E (Exact E) st) {mp : P}
    (hmp : Admitted E st mp) (hlen : headerLength ≤ st.msgLen)
    (hplain : needsToModify E.cfg (E.ops.flags mp) = false) :
    Isolated E st mp ↔ Contained E st mp := by
  have hst := h.aligned
  obtain ⟨hbody, hsub, hsup⟩ := unpack_body hmp hlen hst
  have hstep := onRecvStep_of_plain hmp hplain hst
  have hcursor := hst.cursor
  dsimp only at hstep
  constructor
  · intro hiso
    unfold Isolated at hiso
    dsimp only at hiso
    split_ifs at hiso with hgood
    · -- the frame is good, and unpack on the rest of the buffer does the same
      have hu := hsub hgood.1
      refine ⟨?_, fun _ hshort ↦ ?_⟩
      · rw [hu, hgood.2, hbody]
        omega
      · rw [hu, hgood.2, hbody] at hshort
        omega
    · obtain ⟨rc, st', hstop, -, -, hread⟩ := hiso
      rw [hstep] at hstop
      split_ifs at hstop with hshort hok
      · refine ⟨by omega, fun _ _ ↦ ?_⟩
        rw [hcursor]
        exact hshort
      · obtain ⟨-, rfl⟩ := Step.stop.inj hstop
        refine ⟨?_, fun h ↦ ?_⟩
        · change st.iter + headerLength + (unpackAt E mp st.recvBuf).used ≤ _ at hread
          omega
        · rw [hok] at h
          cases h
  · rintro ⟨hstays, hseen⟩
    unfold Isolated
    dsimp only
    by_cases hgood : (E.ops.unpack mp st.body).ok = true ∧
        (E.ops.unpack mp st.body).used = st.body.length
    · have hu := hsub hgood.1
      have hused : headerLength + (E.ops.unpack mp st.body).used = st.msgLen := by
        rw [hgood.2, hbody]
        omega
      rw [if_pos hgood, hstep, hu, if_neg (by omega), if_neg (by simp [hgood.1])]
      refine ⟨_, rfl, rfl, ?_⟩
      change st.iter + headerLength + _ ≤ _
      omega
    · rw [if_neg hgood, hstep]
      by_cases hshort : st.iter + headerLength + (unpackAt E mp st.recvBuf).used < st.msgLen
      · rw [if_pos hshort]
        refine ⟨_, _, rfl, rfl, rfl, ?_⟩
        change st.iter + headerLength + _ ≤ _
        omega
      · have hfail : (unpackAt E mp st.recvBuf).ok = false := by
          by_contra hok
          have hok : (unpackAt E mp st.recvBuf).ok = true := by simpa using hok
          have hu := hsup hok hstays
          -- a short read that the test misses is what `seen` excludes
          have hne : (unpackAt E mp st.recvBuf).used ≠ st.body.length := by
            rw [hu] at hgood
            exact fun h ↦ hgood ⟨hok, h⟩
          have := hseen hok (by omega)
          omega
        rw [if_neg hshort, if_pos hfail]
        refine ⟨_, _, rfl, rfl, rfl, ?_⟩
        change st.iter + headerLength + _ ≤ _
        omega

/-! ## Two frames of a one-byte message -/

/-- A message with a single `uint8_t` field. -/
def byteOps : PacketOps UInt8 where
  topic _ := 0x02010001
  flags _ := {}
  pack b := ([b], true)
  unpack p bs := match bs with
    | [] => ⟨false, p, 0⟩
    | b :: _ => ⟨true, b, 1⟩
  used_le p bs := by cases bs <;> simp
  unpack_congr p bs bs' hok htake := by
    cases bs with
    | nil => simp at hok
    | cons b bs =>
        cases bs' with
        | nil => simp at htake
        | cons b' bs' =>
            obtain rfl : b' = b := by simpa using htake
            rfl

def byteEnv : Env UInt8 where
  ops := byteOps
  botan := sampleBotan
  cfg := {}
  factory topic := if topic = 0x02010001 then some 0 else none

/-- The loop behind a first frame that carries 5. -/
def secondFrame (rest : List UInt8) : LoopState UInt8 where
  recvBuf := ⟨[9, 0, 0, 0, 0x01, 0x00, 0x01, 0x02, 5] ++ rest, 9⟩
  mods := .initial
  iter := 9
  processedLen := 9
  published := [5]

theorem advances_secondFrame (rest : List UInt8) :
    Exact byteEnv (BitsProtocol.initial.enter
        ([9, 0, 0, 0, 0x01, 0x00, 0x01, 0x02, 5] ++ rest)) ∧
      Advances byteEnv (BitsProtocol.initial.enter
        ([9, 0, 0, 0, 0x01, 0x00, 0x01, 0x02, 5] ++ rest)) (secondFrame rest) := by
  set st : LoopState UInt8 := BitsProtocol.initial.enter
    ([9, 0, 0, 0, 0x01, 0x00, 0x01, 0x02, 5] ++ rest) with hdef
  have hst : st.Aligned := aligned_enter rfl _ _
  have hsize : st.recvBuf.size = rest.length + 9 := by
    simp [hdef, BitsProtocol.enter, BitsProtocol.initial, ResizeBuffer.size]
  have hbytes : st.recvBuf.bytes = fieldBytes 9 ++ fieldBytes 0x02010001 ++ ([5] ++ rest) := by
    have hlength : fieldBytes 9 = [9, 0, 0, 0] := by decide
    have htopic : fieldBytes 0x02010001 = [0x01, 0x00, 0x01, 0x02] := by decide
    rw [hlength, htopic]
    rfl
  have hlen : st.msgLen = 9 := by
    have hfield := fieldValue_fieldBytes [] 9 (fieldBytes 0x02010001 ++ ([5] ++ rest)) (Eq.refl 0)
    rw [List.nil_append, ← List.append_assoc, ← hbytes] at hfield
    exact hfield
  have hmp : Admitted byteEnv st 0 := by
    have htopic : fieldValue st.recvBuf.bytes 4 = 0x02010001 := by
      rw [hbytes]
      exact fieldValue_fieldBytes (fieldBytes 9) 0x02010001 ([5] ++ rest) (Eq.refl 4)
    refine ⟨?_, ?_, ?_, ?_⟩
    · change 0 + 8 ≤ _
      omega
    · rw [hlen]
      decide
    · change 0 + st.msgLen ≤ _
      omega
    · change byteEnv.factory (UInt32.ofNat (fieldValue st.recvBuf.bytes 4)) = _
      rw [htopic]
      rfl
  have hu : unpackAt byteEnv 0 st.recvBuf = ⟨true, 5, 1⟩ := by
    rw [unpackAt, hst.bodyPos_eq hmp]
    rfl
  constructor
  · intro st' mp r hadv
    obtain rfl : 0 = mp := Option.some.inj (hmp.registered.symm.trans hadv.admitted.registered)
    have hreceived := hadv.received
    rw [recvModified_of_not_needed rfl] at hreceived
    obtain rfl := Except.ok.inj hreceived
    rw [hlen]
    exact congrArg (fun u : Unpacked UInt8 ↦ headerLength + u.used) hu
  · rw [Advances, onRecvStep_of_plain hmp rfl hst, hu, hlen]
    rfl

theorem reached_secondFrame (rest : List UInt8) :
    SessionReached byteEnv (Exact byteEnv) (secondFrame rest) := by
  obtain ⟨hexact, hstep⟩ := advances_secondFrame rest
  have hfirst : SessionReached byteEnv (Exact byteEnv)
      (BitsProtocol.initial.enter ([9, 0, 0, 0, 0x01, 0x00, 0x01, 0x02, 5] ++ rest)) :=
    .first (by simp)
  exact hfirst.step hexact hstep

/-- A second good frame is published for its own bytes. -/
theorem isolated_secondFrame :
    Isolated byteEnv (secondFrame [9, 0, 0, 0, 0x01, 0x00, 0x01, 0x02, 6]) 0 := by
  have hmp : Admitted byteEnv (secondFrame [9, 0, 0, 0, 0x01, 0x00, 0x01, 0x02, 6]) 0 :=
    ⟨by decide, by decide, by decide, by decide⟩
  have hcontained : Contained byteEnv (secondFrame [9, 0, 0, 0, 0x01, 0x00, 0x01, 0x02, 6]) 0 :=
    ⟨by decide, by decide⟩
  exact (isolated_iff (reached_secondFrame _) hmp (by decide) (by decide)).mpr hcontained

/-- A second frame that unpack does not use up is published all the same. -/
theorem not_isolated_secondFrame :
    SessionReached byteEnv (Exact byteEnv)
        (secondFrame [10, 0, 0, 0, 0x01, 0x00, 0x01, 0x02, 6, 7]) ∧
      Admitted byteEnv (secondFrame [10, 0, 0, 0, 0x01, 0x00, 0x01, 0x02, 6, 7]) 0 ∧
      headerLength ≤ (secondFrame [10, 0, 0, 0, 0x01, 0x00, 0x01, 0x02, 6, 7]).msgLen ∧
      needsToModify byteEnv.cfg (byteEnv.ops.flags 0) = false ∧
      ¬ Isolated byteEnv (secondFrame [10, 0, 0, 0, 0x01, 0x00, 0x01, 0x02, 6, 7]) 0 := by
  refine ⟨reached_secondFrame _, ⟨by decide, by decide, by decide, by decide⟩, by decide,
    by decide, ?_⟩
  rintro ⟨rc, st', hstop, -⟩
  have hnext : onRecvStep byteEnv (secondFrame [10, 0, 0, 0, 0x01, 0x00, 0x01, 0x02, 6, 7]) =
      .next ⟨⟨_, 18⟩, .initial, 19, 19, [5, 6]⟩ := rfl
  rw [hnext] at hstop
  cases hstop

end WiseKernel.Net
