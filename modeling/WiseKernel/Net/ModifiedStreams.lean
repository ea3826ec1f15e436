import WiseKernel.Net.Session
import WiseKernel.Net.Streams
import WiseKernel.Packing.Generated

/-!
# Modified packets over a stream

Behind a frame that the modifiers have made longer, the read cursor is short
of the iterator by what they added, and the call reads the next frame from the
wrong place.  The cut decides whether there is a next frame in that call.
-/

namespace WiseKernel.Net

open WiseKernel.Lib

variable {P : Type} {E : Env P}

/-- Packets sent one after another on one protocol object: the frames handed
to `tcp_protocol::send` and the modifiers after them. -/
def sendAll (E : Env P) : Modifiers → List P → Option (Modifiers × List (Frame P))
  | s, [] => some (s, [])
  | s, p :: ps =>
      match (sendFrame E s p).out with
      | .ok (_, s, some (.tcp wire)) => do
          let (s, fs) ← sendAll E s ps
          return (s, ⟨p, wire, (packed E p).length⟩ :: fs)
      | _ => none

/-- What both ends rely on: the library's contract, a key change interval that
can be divided by, and a real socket. -/
structure Env.Sound (E : Env P) : Prop where
  botan : E.botan.Lawful
  interval : 1 ≤ E.cfg.keyChangeInterval
  socket : E.cfg.enableLoopback = false

theorem wrapBody_of_not_needed {B : Botan} {cfg : Config} {flags : Flags}
    (h : needsToModify cfg flags = false) (m : Modifiers) (body : List UInt8) :
    wrapBody B cfg flags m body = some (m, body) := by
  simp only [needsToModify, Bool.or_eq_false_iff] at h
  obtain ⟨⟨hcipher, hchecksum⟩, hsequence⟩ := h
  simp [wrapBody, Config.inForce, hcipher, hchecksum, hsequence, wrapSequence, wrapChecksum,
    wrapCipher]

theorem send_eq (hE : E.Sound) {p : P} (hpack : (E.ops.pack p).2 = true) (s : Modifiers) :
    ∃ s' wbody, wrapBody E.botan E.cfg (E.ops.flags p) s (E.ops.pack p).1 = some (s', wbody) ∧
      (E.ops.pack p).1.length ≤ wbody.length ∧
      (sendFrame E s p).out = .ok (.ok, s', some (.tcp
        (wireHeader (packedHeader E p) (E.ops.pack p).1 wbody ++ wbody))) := by
  have hint : E.cfg.keyChangeInterval ≠ 0 := Nat.one_le_iff_ne_zero.mp hE.interval
  cases hneed : needsToModify E.cfg (E.ops.flags p) with
  | false =>
      refine ⟨s, (E.ops.pack p).1, wrapBody_of_not_needed hneed _ _, Nat.le_refl _, ?_⟩
      simp [sendFrame, pack_eq hpack, hneed, hE.socket, wireHeader]
  | true =>
      obtain ⟨s', wbody, hwrap⟩ := wrapBody_isSome hE.botan E.cfg (E.ops.flags p) s
        (E.ops.pack p).1
      obtain ⟨header', hkept, hsend⟩ := sendModified_of_wrapBody hE.botan (fun _ _ ↦ hint)
        (length_packedHeader E p) hwrap
      refine ⟨s', wbody, hwrap, hkept.body_le, ?_⟩
      simpa [sendFrame, pack_eq hpack, hneed, hE.socket] using hsend

/-- The peer that is in step accepts the frame, and stays in step. -/
theorem accepts_sent (hE : E.Sound) {p mp : P} (h : Registered E p mp) {s s' r : Modifiers}
    (hstep : InStep s r) {wire : List UInt8}
    (hsend : (sendFrame E s p).out = .ok (.ok, s', some (.tcp wire)))
    (hmax : wire.length ≤ E.cfg.maxPacketLength) (h32 : wire.length < 2 ^ 32) :
    ∃ r' header tail, InStep s' r' ∧
      Accepts E r ⟨p, wire, (packed E p).length⟩ r' mp header (E.ops.pack p).1 tail := by
  have hint : E.cfg.keyChangeInterval ≠ 0 := Nat.one_le_iff_ne_zero.mp hE.interval
  obtain ⟨s₁, wbody, hwrap, hle, hout⟩ := send_eq hE h.packs s
  obtain ⟨rfl, rfl⟩ : s' = s₁ ∧
      wire = wireHeader (packedHeader E p) (E.ops.pack p).1 wbody ++ wbody := by
    simpa using hsend.symm.trans hout
  set body := (E.ops.pack p).1 with hbody
  obtain ⟨r', hunwrap, hstep'⟩ := unwrapBody_wrapBody hE.botan hint hstep hwrap
  rw [← h.flags] at hunwrap
  have hheader : wireHeader (packedHeader E p) body wbody =
      fieldBytes ((headerLength + wbody.length) % 2 ^ 32) ++
        fieldBytes (E.ops.topic p).toNat := by
    unfold wireHeader
    split_ifs with hgrow
    · rfl
    · rw [packedHeader, show wbody.length = body.length by omega]
  have hlen : (wireHeader (packedHeader E p) body wbody).length = 8 := by
    rw [hheader]
    rfl
  rw [List.length_append, hlen] at hmax h32
  obtain ⟨hlength, htopic⟩ := fields_of_topic (E := E) (p := p) h32
  rw [headerLength, Nat.mod_eq_of_lt h32] at hheader
  refine ⟨r', wireHeader (packedHeader E p) body wbody, wbody, hstep', rfl, hlen, ?_, ?_, ?_,
    length_packed h.packs, h.unpacks, fun pre post ↦ ?_⟩
  · rw [hheader, hlength, ← hheader, List.length_append, hlen]
  · rw [List.length_append, hlen]
    exact hmax
  · rw [hheader, htopic]
    exact h.created
  · obtain ⟨junk, hjunk, hrecv⟩ := recvModified_of_unwrapBody hE.botan hunwrap pre hlen post
    refine ⟨junk, hjunk, ?_⟩
    rw [length_packed h.packs]
    simpa [hlen, headerLength] using hrecv

theorem sendAll_cons {s s' : Modifiers} {p : P} {ps : List P} {fs : List (Frame P)} :
    sendAll E s (p :: ps) = some (s', fs) ↔ ∃ rc s₁ wire gs,
      (sendFrame E s p).out = .ok (rc, s₁, some (.tcp wire)) ∧
        sendAll E s₁ ps = some (s', gs) ∧ fs = ⟨p, wire, (packed E p).length⟩ :: gs := by
  constructor
  · intro h
    rw [sendAll] at h
    split at h
    · rename_i rc s₁ wire hsend
      obtain ⟨⟨s₂, gs⟩, hrest, hcons⟩ := Option.bind_eq_some_iff.mp h
      obtain ⟨rfl, rfl⟩ := Prod.mk.inj (Option.some.inj hcons)
      exact ⟨rc, s₁, wire, gs, hsend, hrest, rfl⟩
    · cases h
  · rintro ⟨rc, s₁, wire, gs, hsend, hrest, rfl⟩
    simp only [sendAll, hsend, hrest]
    rfl

theorem sendAll_packets {s s' : Modifiers} {ps : List P} {fs : List (Frame P)}
    (h : sendAll E s ps = some (s', fs)) : fs.map Frame.packet = ps := by
  induction ps generalizing s fs with
  | nil =>
      obtain ⟨-, rfl⟩ : s = s' ∧ [] = fs := by simpa [sendAll] using h
      rfl
  | cons p ps ih =>
      obtain ⟨rc, s₁, wire, gs, -, hrest, rfl⟩ := sendAll_cons.mp h
      rw [List.map_cons, ih hrest]

theorem sendAll_isSome (hE : E.Sound) {ps : List P} (hpack : ∀ p ∈ ps, (E.ops.pack p).2 = true)
    (s : Modifiers) : ∃ s' fs, sendAll E s ps = some (s', fs) := by
  induction ps generalizing s with
  | nil => exact ⟨s, [], rfl⟩
  | cons p ps ih =>
      obtain ⟨s₁, wbody, -, -, hsend⟩ := send_eq hE (hpack p (by simp)) s
      obtain ⟨s', fs, hrest⟩ := ih (fun q hq ↦ hpack q (List.mem_cons_of_mem p hq)) s₁
      exact ⟨s', _, sendAll_cons.mpr ⟨_, s₁, _, fs, hsend, hrest, rfl⟩⟩

/-- The packets sent by one end are a chain for the other. -/
theorem chain_sendAll (hE : E.Sound) {ps : List P} (hreg : ∀ p ∈ ps, ∃ mp, Registered E p mp)
    {s s' r : Modifiers} (hstep : InStep s r) {fs : List (Frame P)}
    (hsend : sendAll E s ps = some (s', fs))
    (hlen : ∀ f ∈ fs, f.wire.length ≤ E.cfg.maxPacketLength ∧ f.wire.length < 2 ^ 32) :
    ∃ r', InStep s' r' ∧ Chain E r fs r' := by
  induction ps generalizing s r fs with
  | nil =>
      obtain ⟨rfl, rfl⟩ : s = s' ∧ [] = fs := by simpa [sendAll] using hsend
      exact ⟨r, hstep, .nil r⟩
  | cons p ps ih =>
      obtain ⟨mp, hmp⟩ := hreg p (by simp)
      obtain ⟨s₁, wbody, -, -, hone⟩ := send_eq hE hmp.packs s
      obtain ⟨rc, s₂, wire, gs, hone', hrest, rfl⟩ := sendAll_cons.mp hsend
      obtain ⟨hmax, h32⟩ := hlen _ (List.mem_cons_self ..)
      obtain ⟨-, rfl, rfl⟩ : _ ∧ s₁ = s₂ ∧ _ = wire := by simpa using hone.symm.trans hone'
      obtain ⟨r₁, header, tail, hstep₁, haccepts⟩ := accepts_sent hE hmp hstep hone hmax h32
      obtain ⟨r', hstep', hchain⟩ := ih (fun q hq ↦ hreg q (List.mem_cons_of_mem p hq)) hstep₁
        hrest (fun f hf ↦ hlen f (List.mem_cons_of_mem _ hf))
      exact ⟨r', hstep', .cons haccepts hchain⟩

theorem Chain.onRecvAll_wires {r r' : Modifiers} {fs : List (Frame P)} (h : Chain E r fs r')
    {cs : List (List UInt8)} (hne : ∀ c ∈ cs, c ≠ []) (hcs : cs.flatten = wires fs)
    (hsep : Separated fs 0 cs) :
    ∃ fuel, WiseKernel.Net.onRecvAll E fuel ⟨⟨[], 0⟩, r⟩ cs =
      some (cs.map fun _ ↦ .returned .ok, ⟨⟨[], 0⟩, r'⟩, fs.map Frame.packet) := by
  have hzero : Incomplete (fs.map Frame.wire) [] := by
    cases h with
    | nil => rfl
    | @cons _ _ _ f _ _ _ _ _ hf _ =>
        have hwire := hf.length_wire
        simp only [headerLength] at hwire
        change 0 < f.wire.length
        omega
  have hpre : [] ++ cs.flatten <+: wires fs := by simp [hcs]
  obtain ⟨r₁, rest, fuel, hrun, hchain, hcut⟩ := h.onRecvAll hne hzero hpre hsep
  have hk : completeFrames fs ([] ++ cs.flatten).length = fs.length := by
    have happend := completeFrames_append fs [] 0
    rw [List.append_nil] at happend
    rw [List.nil_append, hcs]
    exact happend
  have hrun := hrun fuel (Nat.le_refl fuel)
  rw [hk, List.drop_length] at hchain
  rw [hk, List.take_length] at hrun hcut
  cases hchain
  have hrest : rest = [] := by
    rw [List.nil_append, hcs] at hcut
    simpa using hcut.symm
  exact ⟨fuel, by rw [hrun, hrest]⟩

/-- Packets sent by one end and received by the other, cut so that no call
goes on behind a frame that has grown. -/
theorem onRecvAll_modified (hE : E.Sound) {ps : List P}
    (hreg : ∀ p ∈ ps, ∃ mp, Registered E p mp) :
    ∃ s fs, sendAll E .initial ps = some (s, fs) ∧
      ((∀ f ∈ fs, f.wire.length ≤ E.cfg.maxPacketLength ∧ f.wire.length < 2 ^ 32) →
        ∀ cs : List (List UInt8), (∀ c ∈ cs, c ≠ []) → cs.flatten = wires fs →
          Separated fs 0 cs →
            ∃ fuel r, onRecvAll E fuel .initial cs =
              some (cs.map fun _ ↦ .returned .ok, ⟨⟨[], 0⟩, r⟩, ps) ∧ InStep s r) := by
  obtain ⟨s, fs, hsend⟩ := sendAll_isSome hE
    (fun p hp ↦ (hreg p hp).elim fun _ hmp ↦ hmp.packs) Modifiers.initial
  refine ⟨s, fs, hsend, fun hlen cs hne hcs hsep ↦ ?_⟩
  obtain ⟨r, hstep, hchain⟩ := chain_sendAll hE hreg InStep.initial hsend hlen
  obtain ⟨fuel, hrun⟩ := hchain.onRecvAll_wires hne hcs hsep
  rw [sendAll_packets hsend] at hrun
  exact ⟨fuel, r, hrun, hstep⟩

/-! ## Generated messages with numbers -/

open WiseKernel.Packing

/-- A generated class with one `uint8_t`. -/
def levelClass : PacketClass where
  message := .derived .packet (.cons (.scalar .u8) .nil)
  topic := 0x02010001
  flags := { enableSequence := true }

def level (n : Scalar.u8.Val) : GeneratedPacket := ⟨levelClass, (), n, ()⟩

/-- A generated class with a string and an `int32_t`. -/
def namedClass : PacketClass where
  message := .derived .packet (.cons .string (.cons (.scalar .i32) .nil))
  topic := 0x02010002
  flags := { enableSequence := true }

def named (s : List UInt8) (n : Scalar.i32.Val) : GeneratedPacket := ⟨namedClass, (), s, n, ()⟩

/-- Neither class has a map. -/
def noMaps : (t : Ty) → t.Val → t.Val → Bool := fun _ _ _ ↦ false

def sequencedEnv : Env GeneratedPacket where
  ops := generatedOps true noMaps
  botan := sampleBotan
  cfg := {}
  factory topic :=
    if topic = 0x02010001 then some (level 0)
    else if topic = 0x02010002 then some (named [] 0)
    else none

theorem sequencedEnv_sound : sequencedEnv.Sound := ⟨sampleBotan_lawful, by decide, rfl⟩

theorem registered_level (n : Scalar.u8.Val) : ∃ mp, Registered sequencedEnv (level n) mp :=
  ⟨level 0, registered_generated true noMaps rfl rfl ⟨trivial, trivial, trivial⟩
    ⟨trivial, trivial, trivial⟩ rfl⟩

theorem registered_named {s : List UInt8} {n : Scalar.i32.Val}
    (hpack : ((generatedOps true noMaps).pack (named s n)).2 = true) (hs : ∀ b ∈ s, b ≠ 0) :
    ∃ mp, Registered sequencedEnv (named s n) mp :=
  ⟨named [] 0, registered_generated true noMaps rfl hpack ⟨trivial, hs, trivial, trivial⟩
    ⟨trivial, rfl, trivial, trivial⟩ rfl⟩

def sequencedFrames : List (Frame GeneratedPacket) :=
  [⟨level 5, [10, 0, 0, 0, 0x01, 0x00, 0x01, 0x02, 5, 1], 9⟩,
    ⟨level 6, [10, 0, 0, 0, 0x01, 0x00, 0x01, 0x02, 6, 2], 9⟩]

def namedFrames : List (Frame GeneratedPacket) :=
  [⟨level 5, [10, 0, 0, 0, 0x01, 0x00, 0x01, 0x02, 5, 1], 9⟩,
    ⟨named [0x68, 0x69] 7,
      [17, 0, 0, 0, 0x02, 0x00, 0x01, 0x02, 2, 0, 0x68, 0x69, 7, 0, 0, 0, 2], 16⟩]

/-- The second frame is completed by a call of its own. -/
theorem onRecvAll_modified_cut :
    ∃ fuel r, onRecvAll sequencedEnv fuel .initial
        [[10, 0, 0, 0, 0x01, 0x00, 0x01, 0x02, 5, 1, 17, 0, 0],
          [0, 0x02, 0x00, 0x01, 0x02, 2, 0, 0x68, 0x69, 7, 0, 0, 0, 2]] =
      some ([.returned .ok, .returned .ok], ⟨⟨[], 0⟩, r⟩, [level 5, named [0x68, 0x69] 7]) := by
  have hreg : ∀ p ∈ [level 5, named [0x68, 0x69] 7], ∃ mp, Registered sequencedEnv p mp := by
    rintro p (_ | ⟨_, _ | ⟨_, hp⟩⟩)
    · exact registered_level 5
    · exact registered_named rfl (by simp)
    · exact absurd hp List.not_mem_nil
  obtain ⟨s, fs, hsend, h⟩ := onRecvAll_modified sequencedEnv_sound hreg
  obtain rfl : fs = namedFrames := by
    have hfs : (sendAll sequencedEnv .initial [level 5, named [0x68, 0x69] 7]).map Prod.snd =
        some namedFrames := rfl
    rw [hsend] at hfs
    exact Option.some.inj hfs
  obtain ⟨fuel, r, hrun, -⟩ := h (by decide)
    [[10, 0, 0, 0, 0x01, 0x00, 0x01, 0x02, 5, 1, 17, 0, 0],
      [0, 0x02, 0x00, 0x01, 0x02, 2, 0, 0x68, 0x69, 7, 0, 0, 0, 2]]
    (by decide) (by decide) ⟨by decide, by decide, trivial⟩
  exact ⟨fuel, r, hrun⟩

/-- Both frames in one chunk: the second packet comes out as a byte of its
header. -/
theorem onRecvAll_modified_coalesced :
    (∀ n, needsToModify sequencedEnv.cfg (sequencedEnv.ops.flags (level n)) = true) ∧
      (∀ f ∈ sequencedFrames, f.wire.length ≤ sequencedEnv.cfg.maxPacketLength) ∧
      ∃ s proto, sendAll sequencedEnv .initial [level 5, level 6] = some (s, sequencedFrames) ∧
        onRecvAll sequencedEnv 3 .initial [wires sequencedFrames] =
          some ([.returned .ok], proto, [level 5, level 2]) :=
  ⟨fun _ ↦ rfl, by decide, ⟨⟨3, 1⟩, .initial⟩, ⟨⟨[], 0⟩, ⟨⟨1, 3⟩, .initial⟩⟩, rfl, rfl⟩

end WiseKernel.Net
