import WiseKernel.Net.Framing
import WiseKernel.Net.Pipeline

/-!
# Packets over a stream

Packets are sent one after another, their bytes are cut into chunks, and the
peer reads the chunks.  Plain packets survive every cut.  Modified ones do when
no call of `on_recv` goes on behind a frame that the modifiers have made
longer.
-/

namespace WiseKernel.Net

open WiseKernel.Lib

variable {P : Type} {E : Env P}

/-- The peer's factory knows the packet: it creates an object `mp` with the
same options, whose unpack undoes pack. -/
structure Registered (E : Env P) (p mp : P) : Prop where
  created : E.factory (E.ops.topic p) = some mp
  flags : E.ops.flags mp = E.ops.flags p
  packs : (E.ops.pack p).2 = true
  unpacks : E.ops.unpack mp (E.ops.pack p).1 = ⟨true, p, (E.ops.pack p).1.length⟩

/-- The frame `bits_protocol::pack` makes of a packet. -/
def packed (E : Env P) (p : P) : List UInt8 := (pack E p []).2

def packedHeader (E : Env P) (p : P) : List UInt8 :=
  fieldBytes ((headerLength + (E.ops.pack p).1.length) % 2 ^ 32) ++
    fieldBytes (E.ops.topic p).toNat

theorem length_fieldBytes (v : ℕ) : (fieldBytes v).length = 4 := rfl

theorem length_packedHeader (E : Env P) (p : P) : (packedHeader E p).length = 8 := rfl

theorem pack_eq {p : P} (h : (E.ops.pack p).2 = true) :
    pack E p [] = (.ok, packedHeader E p ++ (E.ops.pack p).1) := by
  set body := (E.ops.pack p).1 with hbody
  set pad : List UInt8 := [0xBA, 0xAB, 0xFE, 0xCA] with hpad
  have hlen : ([] ++ pad ++ pad ++ body).length = headerLength + body.length := by
    simp [hpad, headerLength]
    omega
  have hlength : setLength ((headerLength + body.length) % 2 ^ 32) ([] ++ pad ++ pad ++ body) 0 =
      fieldBytes ((headerLength + body.length) % 2 ^ 32) ++ pad ++ body := by
    have hfront := overwrite_append [] pad
      (fieldBytes ((headerLength + body.length) % 2 ^ 32)) (pad ++ body) (Eq.refl 0) rfl
    simpa [setLength] using hfront
  have htopic : setTopic (E.ops.topic p)
      (fieldBytes ((headerLength + body.length) % 2 ^ 32) ++ pad ++ body) 4 =
        packedHeader E p ++ body :=
    overwrite_append (fieldBytes ((headerLength + body.length) % 2 ^ 32)) pad
      (fieldBytes (E.ops.topic p).toNat) body (Eq.refl 4) rfl
  have hbuf : pack E p [] = (.ok, setTopic (E.ops.topic p)
      (setLength (([] ++ pad ++ pad ++ body).length % 2 ^ 32) ([] ++ pad ++ pad ++ body) 0) 4) := by
    simp only [pack, h, Bool.true_eq_false, if_false, hbody, hpad]
  rw [hbuf, hlen, hlength, htopic]

theorem packed_eq {p : P} (h : (E.ops.pack p).2 = true) :
    packed E p = packedHeader E p ++ (E.ops.pack p).1 := by
  rw [packed, pack_eq h]

theorem length_packed {p : P} (h : (E.ops.pack p).2 = true) :
    (packed E p).length = headerLength + (E.ops.pack p).1.length := by
  rw [packed_eq h, List.length_append, length_packedHeader]
  rfl

theorem fields_of_topic {p : P} {v : ℕ} (hv : v < 2 ^ 32) :
    fieldValue (fieldBytes v ++ fieldBytes (E.ops.topic p).toNat) 0 = v ∧
      UInt32.ofNat (fieldValue (fieldBytes v ++ fieldBytes (E.ops.topic p).toNat) 4) =
        E.ops.topic p := by
  constructor
  · have hfield := fieldValue_fieldBytes [] v (fieldBytes (E.ops.topic p).toNat) (Eq.refl 0)
    rwa [List.nil_append, Nat.mod_eq_of_lt hv] at hfield
  · have hfield := fieldValue_fieldBytes (fieldBytes v) (E.ops.topic p).toNat [] (Eq.refl 4)
    rw [List.append_nil, Nat.mod_eq_of_lt (E.ops.topic p).toNat_lt] at hfield
    rw [hfield, UInt32.ofNat_toNat]

/-! ## Plain packets -/

def plainFrame (E : Env P) (p : P) : Frame P := ⟨p, packed E p, (packed E p).length⟩

theorem accepts_plainFrame {p mp : P} (h : Registered E p mp)
    (hplain : needsToModify E.cfg (E.ops.flags p) = false)
    (hmax : (packed E p).length ≤ E.cfg.maxPacketLength) (h32 : (packed E p).length < 2 ^ 32)
    (r : Modifiers) :
    Accepts E r (plainFrame E p) r mp (packedHeader E p) (E.ops.pack p).1 (E.ops.pack p).1 := by
  have hlen := length_packed h.packs
  obtain ⟨hlength, htopic⟩ := fields_of_topic (E := E) (p := p) (hlen ▸ h32)
  have hheader : packedHeader E p = fieldBytes (headerLength + (E.ops.pack p).1.length) ++
      fieldBytes (E.ops.topic p).toNat := by
    rw [packedHeader, Nat.mod_eq_of_lt (hlen ▸ h32)]
  refine ⟨packed_eq h.packs, rfl, ?_, hmax, ?_, hlen, h.unpacks, fun pre post ↦ ⟨[], by simp, ?_⟩⟩
  · rw [hheader, hlength]
    exact hlen.symm
  · rw [hheader, htopic]
    exact h.created
  · rw [recvModified_of_not_needed (by rw [h.flags]; exact hplain)]
    simp [plainFrame, packed_eq h.packs]

theorem chain_plain {ps : List P} (hreg : ∀ p ∈ ps, ∃ mp, Registered E p mp)
    (hplain : ∀ p ∈ ps, needsToModify E.cfg (E.ops.flags p) = false)
    (hmax : ∀ p ∈ ps, (packed E p).length ≤ E.cfg.maxPacketLength)
    (h32 : ∀ p ∈ ps, (packed E p).length < 2 ^ 32) (r : Modifiers) :
    Chain E r (ps.map (plainFrame E)) r := by
  induction ps with
  | nil => exact .nil r
  | cons p ps ih =>
      obtain ⟨mp, hmp⟩ := hreg p (by simp)
      refine .cons (accepts_plainFrame hmp (hplain p (by simp)) (hmax p (by simp))
        (h32 p (by simp)) r) ?_
      exact ih (fun q hq ↦ hreg q (List.mem_cons_of_mem p hq))
        (fun q hq ↦ hplain q (List.mem_cons_of_mem p hq))
        (fun q hq ↦ hmax q (List.mem_cons_of_mem p hq))
        (fun q hq ↦ h32 q (List.mem_cons_of_mem p hq))

theorem separated_of_tight {fs : List (Frame P)} (h : ∀ f ∈ fs, f.Tight) (waiting : ℕ)
    (cs : List (List UInt8)) : Separated fs waiting cs := by
  induction cs generalizing fs waiting with
  | nil => trivial
  | cons c cs ih =>
      refine ⟨fun f hf ↦ h f ?_, ih (fun f hf ↦ h f (List.mem_of_mem_drop hf)) _⟩
      exact List.mem_of_mem_take ((List.dropLast_sublist _).subset hf)

/-- Plain packets in chunks, however the bytes are cut: after every call the
packets whose frames are complete have been published, and the rest of the
bytes waits with the cursor at its front. -/
theorem onRecvAll_plain {ps : List P} (hreg : ∀ p ∈ ps, ∃ mp, Registered E p mp)
    (hplain : ∀ p ∈ ps, needsToModify E.cfg (E.ops.flags p) = false)
    (hmax : ∀ p ∈ ps, (packed E p).length ≤ E.cfg.maxPacketLength)
    (h32 : ∀ p ∈ ps, (packed E p).length < 2 ^ 32) {cs : List (List UInt8)}
    (hne : ∀ c ∈ cs, c ≠ []) (hpre : cs.flatten <+: (ps.map (packed E)).flatten) :
    ∃ fuel mods, onRecvAll E fuel .initial cs =
      some (cs.map fun _ ↦ .returned .ok,
        ⟨⟨cs.flatten.drop ((ps.take (complete (ps.map (packed E)) cs.flatten.length)).map
          (packed E)).flatten.length, 0⟩, mods⟩,
        ps.take (complete (ps.map (packed E)) cs.flatten.length)) := by
  have hwires : ∀ qs : List P, wires (qs.map (plainFrame E)) = (qs.map (packed E)).flatten := by
    intro qs
    simp [wires, plainFrame, Function.comp_def]
  have hframes : (ps.map (plainFrame E)).map Frame.wire = ps.map (packed E) := by
    simp [plainFrame, Function.comp_def]
  have hzero : Incomplete ((ps.map (plainFrame E)).map Frame.wire) [] := by
    cases ps with
    | nil => rfl
    | cons p ps =>
        obtain ⟨mp, hmp⟩ := hreg p (by simp)
        have hlen := length_packed hmp.packs
        change 0 < (packed E p).length
        simp only [headerLength] at hlen
        omega
  obtain ⟨mods, rest, fuel, hrun, -, hcut⟩ := (chain_plain hreg hplain hmax h32 .initial).onRecvAll
    hne hzero (by rw [hwires]; exact hpre)
    (separated_of_tight (by simp [plainFrame, Frame.Tight]) _ cs)
  refine ⟨fuel, mods, ?_⟩
  have hk : completeFrames (ps.map (plainFrame E)) ([] ++ cs.flatten).length =
      complete (ps.map (packed E)) cs.flatten.length := by
    rw [completeFrames, hframes, List.nil_append]
  rw [hk, ← List.map_take, hwires, List.nil_append] at hcut
  have hrest : cs.flatten.drop ((ps.take (complete (ps.map (packed E)) cs.flatten.length)).map
      (packed E)).flatten.length = rest :=
    (congrArg (List.drop _) hcut).trans List.drop_left
  have hrun := hrun fuel (Nat.le_refl fuel)
  rw [hk, ← List.map_take, List.map_map] at hrun
  rw [hrest]
  simpa [plainFrame, Function.comp_def, BitsProtocol.initial] using hrun

/-- Two one-byte messages, cut inside the length field, behind the first frame
and inside the topic field. -/
theorem onRecvAll_plain_bytes :
    ∃ fuel mods, onRecvAll byteEnv fuel .initial
        [[9, 0], [0, 0, 0x01, 0x00, 0x01, 0x02, 5, 9, 0], [0, 0, 0x01]] =
      some ([.returned .ok, .returned .ok, .returned .ok],
        ⟨⟨[9, 0, 0, 0, 0x01], 0⟩, mods⟩, [5]) := by
  have hreg : ∀ p ∈ ([5, 6] : List UInt8), ∃ mp, Registered byteEnv p mp :=
    fun p _ ↦ ⟨0, rfl, rfl, rfl, rfl⟩
  have hlen : ∀ p, (packed byteEnv p).length = 9 := fun p ↦ length_packed rfl
  have hmax : ∀ p ∈ ([5, 6] : List UInt8), (packed byteEnv p).length ≤ 512 * 1024 := by
    intro p _
    rw [hlen]
    decide
  have h32 : ∀ p ∈ ([5, 6] : List UInt8), (packed byteEnv p).length < 2 ^ 32 := by
    intro p _
    rw [hlen]
    decide
  exact onRecvAll_plain hreg (fun _ _ ↦ rfl) hmax h32 (by decide) (by decide)

/-! ## A frame that the length field cannot hold -/

def blobOps (n : ℕ) : PacketOps (List UInt8) where
  topic _ := 0x02010001
  flags _ := {}
  pack p := (p, true)
  unpack p bs := if n ≤ bs.length then ⟨true, bs.take n, n⟩ else ⟨false, p, 0⟩
  used_le p bs := by
    split_ifs with h
    · exact h
    · exact Nat.zero_le _
  unpack_congr p bs bs' hok htake := by
    split_ifs at hok htake with h
    have h' : n ≤ bs'.length := by
      have hlen := congrArg List.length htake
      simp only [List.length_take] at hlen
      omega
    rw [if_pos h, if_pos h']
    congr 1

def blobEnv (n : ℕ) : Env (List UInt8) where
  ops := blobOps n
  botan := sampleBotan
  cfg := { maxPacketLength := 2 ^ 33 }
  factory topic := if topic = 0x02010001 then some [] else none

theorem registered_blob (n : ℕ) : Registered (blobEnv n) (List.replicate n 0) [] where
  created := rfl
  flags := rfl
  packs := rfl
  unpacks := by simp [blobEnv, blobOps]

theorem length_packed_blob (n : ℕ) :
    (packed (blobEnv n) (List.replicate n 0)).length = 8 + n := by
  rw [length_packed (registered_blob n).packs]
  change headerLength + (List.replicate n (0 : UInt8)).length = 8 + n
  rw [List.length_replicate]
  rfl

theorem fieldValue_zeros (n pos : ℕ) : fieldValue (List.replicate n 0) pos = 0 := by
  rw [fieldValue_eq]
  simp [leValue]

/-- When the stored length is cut to that of a bare header, the loop takes the
body for further frames. -/
theorem onRecv_blob {n : ℕ} (hn : headerLength ≤ n) (hcut : (headerLength + n) % 2 ^ 32 = 8) :
    ∃ fuel proto ps, onRecv (blobEnv n) fuel .initial (packed (blobEnv n) (List.replicate n 0)) =
      some (.returned (.fail .failBitsMessageNotRegistered), proto, ps) := by
  set zeros : List UInt8 := List.replicate n 0 with hzeros
  have hlen : zeros.length = n := List.length_replicate
  have hframe : packed (blobEnv n) zeros =
      fieldBytes 8 ++ fieldBytes 0x02010001 ++ zeros := by
    rw [packed_eq rfl, packedHeader]
    change fieldBytes ((headerLength + zeros.length) % 2 ^ 32) ++ _ ++ zeros = _
    rw [hlen, hcut]
    rfl
  set frame := packed (blobEnv n) zeros with hdef
  set st : LoopState (List UInt8) := BitsProtocol.initial.enter frame with hst
  have hsize : st.recvBuf.size = headerLength + n := by
    change ([] ++ frame).length = _
    rw [hframe]
    simp only [List.nil_append, List.length_append, length_fieldBytes, hlen, headerLength]
  have hmsgLen : st.msgLen = 8 := by
    change fieldValue ([] ++ frame) 0 = 8
    have hfield := fieldValue_fieldBytes [] 8 (fieldBytes 0x02010001 ++ zeros) (Eq.refl 0)
    rw [hframe]
    simpa using hfield
  have htopic : getTopic st.recvBuf.bytes (st.iter + 4) = 0x02010001 := by
    change UInt32.ofNat (fieldValue ([] ++ frame) 4) = _
    have hfield := fieldValue_fieldBytes (fieldBytes 8) 0x02010001 zeros (Eq.refl 4)
    rw [List.nil_append, hframe, hfield]
    rfl
  have haligned : st.Aligned := aligned_enter rfl _ _
  have hmp : Admitted (blobEnv n) st [] := by
    refine ⟨?_, ?_, ?_, ?_⟩
    · change 0 + headerLength ≤ _
      omega
    · rw [hmsgLen]
      exact (by decide : 8 ≤ 2 ^ 33)
    · change 0 + st.msgLen ≤ _
      simp only [headerLength] at hn
      omega
    · rw [htopic]
      rfl
  have hunpack : unpackAt (blobEnv n) [] st.recvBuf = ⟨true, zeros, n⟩ := by
    have hdrop : st.recvBuf.bytes.drop (0 + headerLength) = zeros := by
      change ([] ++ frame).drop 8 = zeros
      rw [List.nil_append, hframe]
      exact List.drop_left' rfl
    rw [unpackAt, haligned.bodyPos_eq hmp]
    change (blobOps n).unpack [] (st.recvBuf.bytes.drop (0 + headerLength)) = _
    rw [hdrop]
    simp [blobOps, hlen, List.take_of_length_le]
  set st' : LoopState (List UInt8) :=
    ⟨⟨frame, 0 + headerLength + n⟩, .initial, 8, 8, [zeros]⟩ with hst'
  have hstep : Advances (blobEnv n) st st' := by
    rw [Advances, onRecvStep_of_plain hmp rfl haligned, hunpack, hmsgLen]
    dsimp only
    rw [if_neg (show ¬ st.iter + headerLength + n < 8 by simp only [headerLength]; omega),
      if_neg (by simp)]
    rfl
  -- behind the header there are only zeros: no length, and an unknown topic
  have hzero : ∀ k, k + 4 ≤ n → fieldValue st'.recvBuf.bytes (8 + k) = 0 := by
    intro k hk
    have hfield := fieldValue_append (fieldBytes 8 ++ fieldBytes 0x02010001) zeros []
      (hlen ▸ hk : k + 4 ≤ zeros.length)
    rw [List.append_nil, ← hframe, fieldValue_zeros] at hfield
    exact hfield
  simp only [headerLength] at hn
  have hrem : st'.remainedLen = n := by
    change (frame.length : ℤ) - 8 = n
    change ([] ++ frame).length = _ at hsize
    simp only [List.nil_append, headerLength] at hsize
    omega
  have hstop : onRecvStep (blobEnv n) st' =
      .stop (.returned (.fail .failBitsMessageNotRegistered)) st' := by
    have hlength : getLength st'.recvBuf.bytes st'.iter = 0 := hzero 0 (by omega)
    have htopic' : getTopic st'.recvBuf.bytes (st'.iter + 4) = 0 := by
      change UInt32.ofNat (fieldValue st'.recvBuf.bytes (8 + 4)) = 0
      rw [hzero 4 (by omega)]
      rfl
    have hleave : leSize headerLength (n : ℤ) := .inr (by simp only [headerLength]; omega)
    simp only [onRecvStep, hrem, hleave, not_true, if_false, hlength, htopic']
    rw [if_neg (by simp), if_neg (by omega)]
    rfl
  refine ⟨2, ⟨st'.recvBuf, st'.mods⟩, st'.published, ?_⟩
  have hne : frame ≠ [] := by
    rw [hframe]
    simp [fieldBytes]
  rw [onRecv, if_neg hne, onRecvLoop_of_advances hstep, onRecvLoop, hstop]
  rfl

/-- A packet of `2 ^ 32` bytes within the limit of the configuration: its one
frame is answered with an error. -/
theorem onRecv_blob_huge :
    Registered (blobEnv (2 ^ 32)) (List.replicate (2 ^ 32) 0) [] ∧
      needsToModify (blobEnv (2 ^ 32)).cfg
        ((blobEnv (2 ^ 32)).ops.flags (List.replicate (2 ^ 32) 0)) = false ∧
      (packed (blobEnv (2 ^ 32)) (List.replicate (2 ^ 32) 0)).length ≤
        (blobEnv (2 ^ 32)).cfg.maxPacketLength ∧
      ∃ fuel proto ps, onRecv (blobEnv (2 ^ 32)) fuel .initial
        (packed (blobEnv (2 ^ 32)) (List.replicate (2 ^ 32) 0)) =
          some (.returned (.fail .failBitsMessageNotRegistered), proto, ps) := by
  refine ⟨registered_blob _, rfl, ?_, onRecv_blob ?_ ?_⟩
  · rw [length_packed_blob]
    exact (by decide : 8 + 2 ^ 32 ≤ 2 ^ 33)
  · decide
  · decide

end WiseKernel.Net
