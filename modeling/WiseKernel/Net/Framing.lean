import WiseKernel.Lib.Blocks
import WiseKernel.Net.ReceiveLoop
import WiseKernel.Net.Isolation

/-!
# Streams of frames in chunks

A frame that the receiver accepts is described by what it puts on the wire,
by the packet it stands for and by the part of it that `unpack` consumes.  A
chain of such frames is fed to `on_recv` in chunks.  As long as no call goes on
behind a frame whose wire bytes are more than unpack consumes, the packets
come out one for one.
-/

namespace WiseKernel.Net

open WiseKernel.Lib

variable {P : Type} {E : Env P}

structure Frame (P : Type) where
  packet : P
  wire : List UInt8
  /-- header and body without what the modifiers add -/
  packedLen : ℕ

def wires (fs : List (Frame P)) : List UInt8 := (fs.map Frame.wire).flatten

/-- A receiver in state `r` accepts the frame wherever it stands, unpacks its
packet and is in state `r'` afterwards. -/
structure Accepts (E : Env P) (r : Modifiers) (f : Frame P) (r' : Modifiers) (mp : P)
    (header body tail : List UInt8) : Prop where
  wire_eq : f.wire = header ++ tail
  header_length : header.length = headerLength
  length_field : fieldValue header 0 = f.wire.length
  admitted : f.wire.length ≤ E.cfg.maxPacketLength
  topic_field : E.factory (UInt32.ofNat (fieldValue header 4)) = some mp
  packed_eq : f.packedLen = headerLength + body.length
  unpacked : E.ops.unpack mp body = ⟨true, f.packet, body.length⟩
  received : ∀ pre post, ∃ junk, body.length + junk.length = tail.length ∧
    (recvModified E.botan E.cfg (E.ops.flags mp) r (pre ++ f.wire ++ post) pre.length
      f.wire.length).out =
        .ok ⟨.ok, r', pre ++ header ++ (body ++ junk) ++ post, f.packedLen⟩

section Accepts

variable {r r' : Modifiers} {f : Frame P} {mp : P} {header body tail : List UInt8}

theorem Accepts.length_wire (h : Accepts E r f r' mp header body tail) :
    f.wire.length = headerLength + tail.length := by
  rw [h.wire_eq, List.length_append, h.header_length]

theorem Accepts.packed_le (h : Accepts E r f r' mp header body tail) :
    f.packedLen ≤ f.wire.length := by
  obtain ⟨junk, hjunk, -⟩ := h.received [] []
  rw [h.packed_eq, h.length_wire]
  omega

theorem Accepts.fields (h : Accepts E r f r' mp header body tail) (pre post : List UInt8) :
    fieldValue (pre ++ f.wire ++ post) pre.length = f.wire.length ∧
      fieldValue (pre ++ f.wire ++ post) (pre.length + 4) = fieldValue header 4 := by
  have hlen := h.header_length
  have hsplit : pre ++ f.wire ++ post = pre ++ header ++ (tail ++ post) := by
    simp [h.wire_eq]
  simp only [headerLength] at hlen
  constructor
  · have hfield := fieldValue_append pre header (tail ++ post) (show 0 + 4 ≤ _ by omega)
    rw [hsplit, ← h.length_field, ← hfield, Nat.add_zero]
  · rw [hsplit]
    exact fieldValue_append pre header (tail ++ post) (by omega)

/-- One iteration at an accepted frame, from a cursor at its first byte. -/
theorem Accepts.advances (h : Accepts E r f r' mp header body tail) {st : LoopState P}
    (hst : st.Aligned) {pre post : List UInt8} (hbytes : st.recvBuf.bytes = pre ++ f.wire ++ post)
    (hiter : st.iter = pre.length) (hmods : st.mods = r) :
    ∃ wire', wire'.length = f.wire.length ∧ Advances E st {
      recvBuf := ⟨pre ++ wire' ++ post, pre.length + f.packedLen⟩
      mods := r'
      iter := pre.length + f.wire.length
      processedLen := pre.length + f.wire.length
      published := st.published ++ [f.packet] } := by
  obtain ⟨junk, hjunk, hrecv⟩ := h.received pre post
  obtain ⟨hlength, htopic⟩ := h.fields pre post
  have hwire := h.length_wire
  have hmsgLen : st.msgLen = f.wire.length := by
    rw [LoopState.msgLen, getLength, hbytes, hiter, hlength]
  have hsize : st.recvBuf.size = pre.length + f.wire.length + post.length := by
    rw [ResizeBuffer.size, hbytes, List.length_append, List.length_append]
  have hadmitted : Admitted E st mp := by
    refine ⟨by omega, ?_, by omega, ?_⟩
    · rw [hmsgLen]
      exact h.admitted
    · rw [getTopic, hbytes, hiter, htopic]
      exact h.topic_field
  have hread : st.recvBuf.readPos = pre.length := hst.cursor.trans hiter
  set after := pre ++ header ++ (body ++ junk) ++ post with hafter
  have hlen : after.length = st.recvBuf.size := by
    simp only [hafter, List.length_append, h.header_length]
    omega
  have hpos : ResizeBuffer.bodyPos ⟨after, st.recvBuf.readPos⟩ = pre.length + headerLength := by
    rw [ResizeBuffer.bodyPos_of_le, hread]
    change st.recvBuf.readPos + headerLength ≤ after.length
    omega
  -- unpack sees the body and everything behind it, and uses the body
  have hunpack : unpackAt E mp ⟨after, st.recvBuf.readPos⟩ =
      ⟨true, f.packet, body.length⟩ := by
    have hdrop : after.drop (pre.length + headerLength) = body ++ (junk ++ post) := by
      have hcut : after = (pre ++ header) ++ (body ++ (junk ++ post)) := by simp [hafter]
      rw [hcut, List.drop_left' (by simp [h.header_length])]
    rw [unpackAt, hpos]
    change E.ops.unpack mp (after.drop (pre.length + headerLength)) = _
    rw [hdrop, ← h.unpacked]
    refine E.ops.unpack_congr mp body _ (by rw [h.unpacked]) ?_
    rw [h.unpacked]
    simp
  refine ⟨header ++ (body ++ junk), ?_, onRecvStep_eq_next.mpr
    ⟨mp, ⟨.ok, r', after, f.packedLen⟩, hadmitted, ?_, rfl, ?_, ?_, ?_⟩⟩
  · simp only [List.length_append, h.header_length, hwire]
    omega
  · rw [hmods, hbytes, hst.processed, hiter, hmsgLen]
    exact hrecv
  · rw [hunpack]
  · rw [hunpack, hpos, h.packed_eq]
    change headerLength + body.length ≤ pre.length + headerLength + body.length
    omega
  · simp only [hunpack, hpos, hst.processed, hiter, hmsgLen, h.packed_eq]
    simp [hafter, Nat.add_assoc]

/-- Behind the complete frames the loop is left: there is no header yet, or
its frame is not complete. -/
theorem Accepts.leaves (h : Accepts E r f r' mp header body tail) {st : LoopState P}
    {pre rest : List UInt8} (hbytes : st.recvBuf.bytes = pre ++ rest)
    (hiter : st.iter = pre.length) (hrest : rest <+: f.wire) (hlt : rest.length < f.wire.length) :
    onRecvStep E st = .leave := by
  have hrem : st.remainedLen = rest.length := by
    simp only [LoopState.remainedLen, ResizeBuffer.size, hbytes, hiter, List.length_append]
    omega
  by_cases hshort : rest.length < headerLength
  · rw [onRecvStep, if_pos]
    simp only [hrem, leSize, headerLength] at hshort ⊢
    omega
  · have hlen := h.header_length
    simp only [headerLength] at hlen hshort
    obtain ⟨rest', rfl⟩ : header <+: rest := List.prefix_of_prefix_length_le
      (by rw [h.wire_eq]; exact List.prefix_append _ _) hrest (by omega)
    have hfield : getLength st.recvBuf.bytes st.iter = f.wire.length := by
      have hcut := fieldValue_append pre header rest' (show 0 + 4 ≤ _ by omega)
      rw [getLength, hbytes, hiter, ← h.length_field, ← hcut, Nat.add_zero, List.append_assoc]
    have hleave : leSize headerLength st.remainedLen := by
      simp only [hrem, leSize, headerLength]
      omega
    have hmax : ¬ E.cfg.maxPacketLength < f.wire.length := Nat.not_lt.mpr h.admitted
    have hless : st.remainedLen < (f.wire.length : ℤ) := by
      rw [hrem]
      exact_mod_cast hlt
    simp only [onRecvStep, hleave, not_true, if_false, hfield, hmax, if_pos hless]

end Accepts

/-! ## Chains of frames -/

/-- Frames that a receiver accepts one after another, from state `r` on. -/
inductive Chain (E : Env P) : Modifiers → List (Frame P) → Modifiers → Prop
  | nil (r : Modifiers) : Chain E r [] r
  | cons {r r₁ r' : Modifiers} {f : Frame P} {fs : List (Frame P)} {mp : P}
      {header body tail : List UInt8} : Accepts E r f r₁ mp header body tail →
        Chain E r₁ fs r' → Chain E r (f :: fs) r'

theorem Chain.split {r r' : Modifiers} {fs gs : List (Frame P)} (h : Chain E r (fs ++ gs) r') :
    ∃ r₁, Chain E r fs r₁ ∧ Chain E r₁ gs r' := by
  induction fs generalizing r with
  | nil => exact ⟨r, .nil r, h⟩
  | cons f fs ih =>
      cases h with
      | cons hf hrest =>
          obtain ⟨r₁, hfs, hgs⟩ := ih hrest
          exact ⟨r₁, .cons hf hfs, hgs⟩

/-- The modifiers have added nothing to the frame. -/
def Frame.Tight (f : Frame P) : Prop := f.packedLen = f.wire.length

instance (f : Frame P) : Decidable f.Tight :=
  inferInstanceAs (Decidable (f.packedLen = f.wire.length))

/-- The iterations of one call over complete frames, of which only the last
one may have grown. -/
theorem Chain.reaches {r r' : Modifiers} {fs : List (Frame P)} (h : Chain E r fs r')
    (htight : ∀ f ∈ fs.dropLast, f.Tight) {st : LoopState P} (hst : st.Aligned)
    {pre rest : List UInt8} (hbytes : st.recvBuf.bytes = pre ++ wires fs ++ rest)
    (hiter : st.iter = pre.length) (hmods : st.mods = r) :
    ∃ st', Relation.ReflTransGen (Advances E) st st' ∧
      ∃ pre', pre'.length = pre.length + (wires fs).length ∧
        st'.recvBuf.bytes = pre' ++ rest ∧ st'.iter = pre'.length ∧
        st'.processedLen = pre'.length ∧ st'.recvBuf.readPos ≤ pre'.length ∧
        st'.mods = r' ∧ st'.published = st.published ++ fs.map Frame.packet := by
  induction h generalizing st pre with
  | nil r =>
      refine ⟨st, .refl, pre, rfl, by simpa [wires] using hbytes, hiter, ?_, ?_, hmods, by simp⟩
      · rw [hst.processed, hiter]
      · rw [hst.cursor, hiter]
  | @cons r r₁ r' f fs mp header body tail hf hrest ih =>
      have hcut : st.recvBuf.bytes = pre ++ f.wire ++ (wires fs ++ rest) := by
        rw [hbytes]
        simp [wires]
      obtain ⟨wire', hlen, hstep⟩ := hf.advances hst hcut hiter hmods
      set st₁ : LoopState P := {
        recvBuf := ⟨pre ++ wire' ++ (wires fs ++ rest), pre.length + f.packedLen⟩
        mods := r₁
        iter := pre.length + f.wire.length
        processedLen := pre.length + f.wire.length
        published := st.published ++ [f.packet] } with hst₁
      have hpre : (pre ++ wire').length = pre.length + f.wire.length := by simp [hlen]
      by_cases hnil : fs = []
      · -- the last frame of the call: a cursor before its end does no harm
        subst hnil
        cases hrest
        refine ⟨st₁, .single hstep, pre ++ wire', ?_, by simp [hst₁, wires], hpre.symm,
          hpre.symm, ?_, rfl, by simp [hst₁]⟩
        · rw [hpre]
          simp [wires]
        · have := hf.packed_le
          change pre.length + f.packedLen ≤ _
          omega
      · have hfirst : f.Tight := htight f (by simp [List.dropLast_cons_of_ne_nil hnil])
        have haligned : st₁.Aligned := by
          refine ⟨?_, rfl, ?_⟩
          · change pre.length + f.packedLen = pre.length + f.wire.length
            rw [hfirst]
          · change pre.length + f.wire.length ≤ (pre ++ wire' ++ (wires fs ++ rest)).length
            rw [List.length_append, hpre]
            omega
        obtain ⟨st', hreach, pre', hpre', hrest'⟩ := ih
          (fun g hg ↦ htight g (by
            rw [List.dropLast_cons_of_ne_nil hnil]
            exact List.mem_cons_of_mem f hg)) haligned
          (show st₁.recvBuf.bytes = (pre ++ wire') ++ wires fs ++ rest by simp [hst₁])
          hpre.symm rfl
        refine ⟨st', .head hstep hreach, pre', ?_, ?_⟩
        · rw [hpre', hpre]
          simp [wires, Nat.add_assoc]
        · obtain ⟨hb, hi, hp, hr, hm, hpub⟩ := hrest'
          refine ⟨hb, hi, hp, hr, hm, ?_⟩
          rw [hpub]
          simp [hst₁]

/-- The loop is left in front of the first frame that is not complete. -/
theorem Chain.leaves {r r' : Modifiers} {gs : List (Frame P)} (h : Chain E r gs r')
    {st : LoopState P} {pre rest : List UInt8} (hbytes : st.recvBuf.bytes = pre ++ rest)
    (hiter : st.iter = pre.length) (hrest : rest <+: wires gs)
    (hinc : Incomplete (gs.map Frame.wire) rest) : onRecvStep E st = .leave := by
  cases h with
  | nil =>
      have hnil : rest = [] := hinc
      have hrem : st.remainedLen = 0 := by
        simp [LoopState.remainedLen, ResizeBuffer.size, hbytes, hiter, hnil]
      rw [onRecvStep, if_pos (by simp [hrem, leSize, headerLength])]
  | @cons _ _ _ f fs mp header body tail hf hfs =>
      have hlt : rest.length < f.wire.length := hinc
      have hwire : f.wire <+: wires (f :: fs) := by
        simp [wires]
      exact hf.leaves hbytes hiter
        (List.prefix_of_prefix_length_le hrest hwire (Nat.le_of_lt hlt)) hlt

/-- The end of a call: the processed bytes go, and the cursor with them. -/
theorem popFront_processed {buf : ResizeBuffer} {pre rest : List UInt8}
    (hbytes : buf.bytes = pre ++ rest) (hread : buf.readPos ≤ pre.length) :
    (if 0 < pre.length then buf.popFront pre.length else some buf) = some ⟨rest, 0⟩ := by
  have hsize : buf.size = pre.length + rest.length := by simp [ResizeBuffer.size, hbytes]
  by_cases hpos : 0 < pre.length
  · rw [if_pos hpos, ResizeBuffer.popFront, if_neg (by omega), if_neg (by omega), hbytes,
      List.drop_left]
    split_ifs with hle
    · rw [Nat.sub_eq_zero_of_le hread]
    · rfl
  · obtain rfl : pre = [] := List.length_eq_zero_iff.mp (by omega)
    obtain ⟨bytes, readPos⟩ := buf
    obtain rfl : readPos = 0 := by simpa using hread
    obtain rfl : bytes = rest := by simpa using hbytes
    exact if_neg hpos

/-- One call of `on_recv`: the frames that the chunk completes are published,
and the rest waits with the cursor at its front. -/
theorem Chain.onRecv {r r' : Modifiers} {fs gs : List (Frame P)} (h : Chain E r (fs ++ gs) r')
    (htight : ∀ f ∈ fs.dropLast, f.Tight) {t c rest : List UInt8} (hc : c ≠ [])
    (hcut : t ++ c = wires fs ++ rest) (hrest : rest <+: wires gs)
    (hinc : Incomplete (gs.map Frame.wire) rest) :
    ∃ r₁ fuel, Chain E r₁ gs r' ∧ ∀ n, fuel ≤ n →
      WiseKernel.Net.onRecv E n ⟨⟨t, 0⟩, r⟩ c =
        some (.returned .ok, ⟨⟨rest, 0⟩, r₁⟩, fs.map Frame.packet) := by
  obtain ⟨r₁, hfs, hgs⟩ := h.split
  have haligned : (BitsProtocol.enter ⟨⟨t, 0⟩, r⟩ c : LoopState P).Aligned :=
    aligned_enter rfl r c
  obtain ⟨st', hreach, pre, hpre, hbytes, hiter, hprocessed, hread, hmods, hpub⟩ :=
    hfs.reaches htight haligned (show t ++ c = [] ++ wires fs ++ rest by simpa using hcut) rfl rfl
  have hleave := hgs.leaves hbytes hiter hrest hinc
  have hend : onRecvLoop E 1 st' =
      some (.returned .ok, { st' with recvBuf := ⟨rest, 0⟩ }) := by
    rw [onRecvLoop, hleave, hprocessed]
    simp only [popFront_processed hbytes hread]
  obtain ⟨fuel, hloop⟩ := onRecvLoop_of_reached hreach hend
  refine ⟨r₁, fuel, hgs, fun n hn ↦ ?_⟩
  have hrun := onRecvLoop_mono hn hloop
  simp only [WiseKernel.Net.onRecv, if_neg hc]
  simp only [hrun, Option.map_some, hmods, hpub]
  rfl

/-! ## Chunks -/

/-- How many of the frames are complete in their first `n` bytes. -/
def completeFrames (fs : List (Frame P)) (n : ℕ) : ℕ := complete (fs.map Frame.wire) n

/-- Of the frames that one call completes, only the last may have grown.
`waiting` bytes of the first frame have come with earlier chunks. -/
def Separated : List (Frame P) → ℕ → List (List UInt8) → Prop
  | _, _, [] => True
  | fs, waiting, c :: cs =>
      let k := completeFrames fs (waiting + c.length)
      (∀ f ∈ (fs.take k).dropLast, f.Tight) ∧
        Separated (fs.drop k) (waiting + c.length - (wires (fs.take k)).length) cs

theorem wires_append (fs gs : List (Frame P)) : wires (fs ++ gs) = wires fs ++ wires gs := by
  simp [wires]

theorem exists_completeFrames {fs : List (Frame P)} {xs : List UInt8} (h : xs <+: wires fs) :
    ∃ rest, xs = wires (fs.take (completeFrames fs xs.length)) ++ rest ∧
      rest <+: wires (fs.drop (completeFrames fs xs.length)) ∧
      Incomplete ((fs.drop (completeFrames fs xs.length)).map Frame.wire) rest := by
  simpa only [wires, completeFrames, List.map_take, List.map_drop] using exists_complete h

theorem completeFrames_append (fs gs : List (Frame P)) (n : ℕ) :
    completeFrames (fs ++ gs) ((wires fs).length + n) = fs.length + completeFrames gs n := by
  simpa [completeFrames, wires] using
    complete_append (fs.map Frame.wire) (gs.map Frame.wire) n

/-- A chain of frames in chunks, however they are cut as long as the frames
that have grown are separated. -/
theorem Chain.onRecvAll {cs : List (List UInt8)} (hne : ∀ c ∈ cs, c ≠ []) {r r' : Modifiers}
    {fs : List (Frame P)} (h : Chain E r fs r') {t : List UInt8}
    (hinc : Incomplete (fs.map Frame.wire) t) (hpre : t ++ cs.flatten <+: wires fs)
    (hsep : Separated fs t.length cs) :
    ∃ r₁ rest fuel, (∀ n, fuel ≤ n → WiseKernel.Net.onRecvAll E n ⟨⟨t, 0⟩, r⟩ cs =
        some (cs.map fun _ ↦ .returned .ok, ⟨⟨rest, 0⟩, r₁⟩,
          (fs.take (completeFrames fs (t ++ cs.flatten).length)).map Frame.packet)) ∧
      Chain E r₁ (fs.drop (completeFrames fs (t ++ cs.flatten).length)) r' ∧
      t ++ cs.flatten =
        wires (fs.take (completeFrames fs (t ++ cs.flatten).length)) ++ rest := by
  induction cs generalizing r fs t with
  | nil =>
      have hk : completeFrames fs t.length = 0 := complete_of_incomplete hinc
      exact ⟨r, t, 0, fun n _ ↦ by simp [WiseKernel.Net.onRecvAll, hk],
        by simpa [hk] using h, by simp [hk, wires]⟩
  | cons c cs ih =>
      rw [List.flatten_cons, ← List.append_assoc] at hpre ⊢
      obtain ⟨rest, hcut, hrest, hinc'⟩ := exists_completeFrames
        ((List.prefix_append (t ++ c) cs.flatten).trans hpre)
      obtain ⟨htight, hsep'⟩ := hsep
      rw [List.length_append] at hcut hrest hinc'
      set k := completeFrames fs (t.length + c.length) with hk
      have hsplit : fs.take k ++ fs.drop k = fs := List.take_append_drop k fs
      obtain ⟨r₁, fuel₁, hchain, hrun⟩ := Chain.onRecv (hsplit.symm ▸ h) htight
        (hne c (by simp)) hcut hrest hinc'
      have hpre' : rest ++ cs.flatten <+: wires (fs.drop k) := by
        rw [← hsplit, wires_append, hcut, List.append_assoc] at hpre
        exact (List.prefix_append_right_inj _).mp hpre
      have hwait : t.length + c.length - (wires (fs.take k)).length = rest.length := by
        have hlen := congrArg List.length hcut
        simp only [List.length_append] at hlen
        omega
      rw [hwait] at hsep'
      obtain ⟨r₂, rest', fuel₂, hrun', hchain', hcut'⟩ :=
        ih (fun c hc ↦ hne c (List.mem_cons_of_mem _ hc)) hchain hinc' hpre' hsep'
      set j := completeFrames (fs.drop k) (rest ++ cs.flatten).length with hj
      have hle : k ≤ fs.length := by
        simpa [hk, completeFrames] using complete_le (fs.map Frame.wire) (t.length + c.length)
      have hsum : completeFrames fs (t ++ c ++ cs.flatten).length = k + j := by
        have happend := completeFrames_append (fs.take k) (fs.drop k) (rest ++ cs.flatten).length
        rw [hsplit, List.length_take, Nat.min_eq_left hle] at happend
        rw [hcut, List.append_assoc, List.length_append, happend]
      refine ⟨r₂, rest', max fuel₁ fuel₂, fun n hn ↦ ?_, ?_, ?_⟩
      · rw [WiseKernel.Net.onRecvAll, hrun n (by omega)]
        simp only [Option.bind_eq_bind, Option.bind_some, hrun' n (by omega), hsum,
          List.take_add, List.map_append, List.map_cons]
        rfl
      · rw [hsum, ← List.drop_drop]
        exact hchain'
      · rw [hsum, List.take_add, wires_append, List.append_assoc (wires _), ← hcut',
          ← List.append_assoc, ← hcut]

end WiseKernel.Net
