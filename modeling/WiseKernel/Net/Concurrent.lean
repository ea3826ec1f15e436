import Mathlib.Data.List.Perm.Basic
import WiseKernel.Net.ModifiedStreams

/-!
# Concurrent senders

`bits_protocol::send` takes two steps: the modifiers take their state for the
packet, and later the finished frame is appended to the send buffer of the
session.  Each step is atomic and nothing covers both.  The stream is the one
of a single sender as long as no frame overtakes another while both depend on
the state of the modifiers.
-/

namespace WiseKernel.Net

open WiseKernel.Lib

variable {P T : Type} [DecidableEq T] {E : Env P}

/-! ## The threads of one protocol object -/

/-- `pending` holds the frames of the threads between their two steps, in the
order of the modifier steps; `sent` is the send buffer of the session. -/
structure Senders (T P : Type) where
  mods : Modifiers
  pending : List (T × Frame P)
  sent : List (Frame P)

def Senders.initial : Senders T P := ⟨.initial, [], []⟩

/-- A step of a thread: it takes its packet through the modifiers, or appends
the frame it has. -/
inductive Action (T P : Type)
  | modify (t : T) (p : P)
  | append (t : T)

def Action.packet? : Action T P → Option P
  | .modify _ p => some p
  | .append _ => none

/-- One step; `none` when the thread cannot take it. -/
def Senders.step (E : Env P) (st : Senders T P) : Action T P → Option (Senders T P)
  | .modify t p =>
      if t ∈ st.pending.map Prod.fst then none
      else match (sendFrame E st.mods p).out with
        | .ok (_, s, some (.tcp wire)) =>
            some { st with
              mods := s
              pending := st.pending ++ [(t, ⟨p, wire, (packed E p).length⟩)] }
        | _ => none
  | .append t =>
      match st.pending.find? (·.1 = t) with
      | none => none
      | some e =>
          some { st with
            pending := st.pending.eraseP (·.1 = t)
            sent := st.sent ++ [e.2] }

def Senders.run (E : Env P) : Senders T P → List (Action T P) → Option (Senders T P)
  | st, [] => some st
  | st, act :: acts => (st.step E act).bind fun st ↦ Senders.run E st acts

/-- The modifiers keep state for the packet: a sequence number, or the key
schedule of a body that is encrypted. -/
def stateful (E : Env P) (p : P) : Bool :=
  (E.cfg.inForce (E.ops.flags p)).enableSequence ||
    (E.cfg.inForce (E.ops.flags p)).enableCipher && !(E.ops.pack p).1.isEmpty

/-- The frame that thread `t` appends overtakes none that its state depends
on: it keeps no state itself, or no earlier frame that waits does. -/
def InOrder (E : Env P) (st : Senders T P) (t : T) : Prop :=
  (∀ e ∈ st.pending.find? (·.1 = t), stateful E e.2.packet = false) ∨
    ∀ e ∈ st.pending.takeWhile (·.1 ≠ t), stateful E e.2.packet = false

/-- Every append of an interleaving is in order. -/
def OrderedRun (E : Env P) : Senders T P → List (Action T P) → Prop
  | _, [] => True
  | st, act :: acts => (∀ t, act = .append t → InOrder E st t) ∧
      ∀ st', st.step E act = some st' → OrderedRun E st' acts

/-! ## Packets without state -/

/-- A packet that keeps no state becomes the same frame from every state. -/
theorem wrapBody_of_stateless (hE : E.Sound) {p : P} (h : stateful E p = false) :
    ∃ wbody, ∀ m, wrapBody E.botan E.cfg (E.ops.flags p) m (E.ops.pack p).1 =
      some (m, wbody) := by
  simp only [stateful, Bool.or_eq_false_iff, Bool.and_eq_false_iff] at h
  obtain ⟨hsequence, hcipher⟩ := h
  obtain ⟨wbody, hcrc⟩ := wrapChecksum_isSome hE.botan
    (E.cfg.inForce (E.ops.flags p)).enableChecksum (E.ops.pack p).1
  refine ⟨wbody, fun m ↦ ?_⟩
  have hoff : ¬ ((E.cfg.inForce (E.ops.flags p)).enableCipher = true ∧ wbody ≠ []) := by
    rcases hcipher with hoff | hnil
    · simp [hoff]
    · have hbody : (E.ops.pack p).1 = [] := by simpa using hnil
      rintro ⟨-, hne⟩
      apply hne
      rw [hbody] at hcrc
      cases hon : (E.cfg.inForce (E.ops.flags p)).enableChecksum with
      | false => simpa [wrapChecksum, hon] using hcrc.symm
      | true =>
          obtain ⟨hash, -, hwrap⟩ : ∃ hash, E.botan.crc32 = some hash ∧
              Checksum.wrap hash [] = wbody := by
            simpa [wrapChecksum, hon] using hcrc
          simpa [Checksum.wrap] using hwrap.symm
  simp [wrapBody, wrapSequence, hsequence, hcrc, wrapCipher, hoff]

theorem send_of_stateless (hE : E.Sound) {p : P} (hpack : (E.ops.pack p).2 = true)
    (h : stateful E p = false) :
    ∃ wire, ∀ s, (sendFrame E s p).out = .ok (.ok, s, some (.tcp wire)) := by
  obtain ⟨wbody, hwrap⟩ := wrapBody_of_stateless hE h
  refine ⟨wireHeader (packedHeader E p) (E.ops.pack p).1 wbody ++ wbody, fun s ↦ ?_⟩
  obtain ⟨s', wbody', hwrap', -, hsend⟩ := send_eq hE hpack s
  obtain ⟨rfl, rfl⟩ : s = s' ∧ wbody = wbody' := by
    simpa using (hwrap s).symm.trans hwrap'
  exact hsend

/-! ## Sending in a row -/

theorem sendAll_append {s s' : Modifiers} {ps qs : List P} {hs : List (Frame P)} :
    sendAll E s (ps ++ qs) = some (s', hs) ↔ ∃ s₁ fs gs, sendAll E s ps = some (s₁, fs) ∧
      sendAll E s₁ qs = some (s', gs) ∧ hs = fs ++ gs := by
  induction ps generalizing s hs with
  | nil => simp [sendAll]
  | cons p ps ih =>
      rw [List.cons_append, sendAll_cons]
      constructor
      · rintro ⟨rc, s₁, wire, gs, hsend, hrest, rfl⟩
        obtain ⟨s₂, fs, gs', hps, hqs, rfl⟩ := ih.mp hrest
        exact ⟨s₂, _, gs', sendAll_cons.mpr ⟨rc, s₁, wire, fs, hsend, hps, rfl⟩, hqs, rfl⟩
      · rintro ⟨s₂, fs, gs', hps, hqs, rfl⟩
        obtain ⟨rc, s₁, wire, fs', hsend, hrest, rfl⟩ := sendAll_cons.mp hps
        exact ⟨rc, s₁, wire, fs' ++ gs', hsend, ih.mpr ⟨s₂, fs', gs', hrest, hqs, rfl⟩, rfl⟩

/-- Packets without state leave the modifiers alone and can be sent at any
other time. -/
theorem sendAll_of_stateless (hE : E.Sound) {ps : List P}
    (hpack : ∀ p ∈ ps, (E.ops.pack p).2 = true) (h : ∀ p ∈ ps, stateful E p = false)
    {s s' : Modifiers} {fs : List (Frame P)} (hsend : sendAll E s ps = some (s', fs)) :
    s' = s ∧ ∀ u, sendAll E u ps = some (u, fs) := by
  induction ps generalizing s fs with
  | nil =>
      obtain ⟨rfl, rfl⟩ : s = s' ∧ [] = fs := by simpa [sendAll] using hsend
      exact ⟨rfl, fun u ↦ rfl⟩
  | cons p ps ih =>
      obtain ⟨wire, hwire⟩ := send_of_stateless hE (hpack p (by simp)) (h p (by simp))
      obtain ⟨rc, s₁, wire', gs, hone, hrest, rfl⟩ := sendAll_cons.mp hsend
      obtain ⟨-, rfl, rfl⟩ : rc = .ok ∧ s₁ = s ∧ wire' = wire := by
        simpa using hone.symm.trans (hwire s)
      obtain ⟨rfl, hall⟩ := ih (fun q hq ↦ hpack q (List.mem_cons_of_mem p hq))
        (fun q hq ↦ h q (List.mem_cons_of_mem p hq)) hrest
      exact ⟨rfl, fun u ↦ sendAll_cons.mpr ⟨.ok, u, wire', gs, hwire u, hall u, rfl⟩⟩

/-- A frame may overtake others when it or all of them keep no state. -/
theorem sendAll_overtake (hE : E.Sound) {as bs : List P} {p : P}
    (hpack : ∀ q ∈ as ++ p :: bs, (E.ops.pack q).2 = true)
    (horder : stateful E p = false ∨ ∀ q ∈ as, stateful E q = false) {s s' : Modifiers}
    {fas fbs : List (Frame P)} {f : Frame P} (hlen : fas.length = as.length)
    (h : sendAll E s (as ++ p :: bs) = some (s', fas ++ f :: fbs)) :
    ∃ s₁, sendAll E s [p] = some (s₁, [f]) ∧
      sendAll E s₁ (as ++ bs) = some (s', fas ++ fbs) := by
  obtain ⟨s₁, fs, gs, has, hrest, hsplit⟩ := sendAll_append.mp h
  have hlenfs : fs.length = as.length := by
    rw [← sendAll_packets has, List.length_map]
  obtain ⟨rfl, rfl⟩ := List.append_inj hsplit (hlen.trans hlenfs.symm)
  obtain ⟨rc, s₂, wire, gs', hone, hbs, hcons⟩ := sendAll_cons.mp hrest
  obtain ⟨rfl, rfl⟩ := List.cons.inj hcons
  rcases horder with hp | has'
  · obtain ⟨wire', hwire⟩ := send_of_stateless hE (hpack p (by simp)) hp
    obtain ⟨-, rfl, rfl⟩ : rc = .ok ∧ s₂ = s₁ ∧ wire = wire' := by
      simpa using hone.symm.trans (hwire s₁)
    exact ⟨s, sendAll_cons.mpr ⟨.ok, s, wire, [], hwire s, rfl, rfl⟩,
      sendAll_append.mpr ⟨s₂, fas, fbs, has, hbs, rfl⟩⟩
  · obtain ⟨rfl, hall⟩ := sendAll_of_stateless hE (fun q hq ↦ hpack q (by simp [hq])) has' has
    exact ⟨s₂, sendAll_cons.mpr ⟨rc, s₂, wire, [], hone, rfl, rfl⟩,
      sendAll_append.mpr ⟨s₂, fas, fbs, hall s₂, hbs, rfl⟩⟩

/-! ## Interleavings -/

def Senders.waiting (st : Senders T P) : List P := st.pending.map fun e ↦ e.2.packet

/-- The send buffer is that of a single sender, the waiting frames go on from
there, and each packet of a call is in one of the two places. -/
structure Serial (E : Env P) (st : Senders T P) (calls : List P) : Prop where
  chain : ∃ s, sendAll E .initial (st.sent.map Frame.packet) = some (s, st.sent) ∧
    sendAll E s st.waiting = some (st.mods, st.pending.map Prod.snd)
  once : (st.sent.map Frame.packet ++ st.waiting).Perm calls

omit [DecidableEq T] in
theorem Serial.initial : Serial E (Senders.initial : Senders T P) [] :=
  ⟨⟨.initial, rfl, rfl⟩, .nil⟩

theorem Serial.modify {st st' : Senders T P} {calls : List P} (h : Serial E st calls) {t : T}
    {p : P} (hstep : st.step E (.modify t p) = some st') : Serial E st' (calls ++ [p]) := by
  rw [Senders.step] at hstep
  split_ifs at hstep
  split at hstep
  · rename_i rc s' wire hsend
    obtain rfl := Option.some.inj hstep
    obtain ⟨⟨s, hsent, hwait⟩, honce⟩ := h
    refine ⟨⟨s, hsent, ?_⟩, ?_⟩
    · simp only [Senders.waiting, List.map_append, List.map_cons, List.map_nil] at hwait ⊢
      exact sendAll_append.mpr ⟨st.mods, _, _, hwait,
        sendAll_cons.mpr ⟨rc, s', wire, [], hsend, rfl, rfl⟩, rfl⟩
    · simp only [Senders.waiting, List.map_append, List.map_cons, List.map_nil] at honce ⊢
      rw [← List.append_assoc]
      exact honce.append_right [p]
  · cases hstep

theorem Serial.append (hE : E.Sound) {st st' : Senders T P} {calls : List P}
    (h : Serial E st calls) (hpack : ∀ p ∈ calls, (E.ops.pack p).2 = true) {t : T}
    (horder : InOrder E st t) (hstep : st.step E (.append t) = some st') :
    Serial E st' calls := by
  rw [Senders.step] at hstep
  split at hstep
  · cases hstep
  · rename_i e hfind
    obtain rfl := Option.some.inj hstep
    obtain ⟨hte, as, bs, hpending, has⟩ := List.find?_eq_some_iff_append.mp hfind
    have hte : e.1 = t := by simpa using hte
    have has : ∀ x ∈ as, x.1 ≠ t := fun x hx ↦ by simpa using has x hx
    have herase : st.pending.eraseP (fun x ↦ decide (x.1 = t)) = as ++ bs := by
      rw [hpending, List.eraseP_append_right _ (fun x hx ↦ by simpa using has x hx),
        List.eraseP_cons_of_pos (by simpa using hte)]
    have hearlier : st.pending.takeWhile (fun x ↦ decide (x.1 ≠ t)) = as := by
      rw [hpending, List.takeWhile_append_of_pos (fun x hx ↦ by simpa using has x hx),
        List.takeWhile_cons_of_neg (by simpa using hte), List.append_nil]
    obtain ⟨⟨s, hsent, hwait⟩, honce⟩ := h
    simp only [Senders.waiting, hpending, List.map_append, List.map_cons] at hwait honce
    have hpack' : ∀ q ∈ as.map (fun e ↦ e.2.packet) ++ e.2.packet ::
        bs.map (fun e ↦ e.2.packet), (E.ops.pack q).2 = true := by
      intro q hq
      exact hpack q (honce.subset (List.mem_append_right _ hq))
    have horder' : stateful E e.2.packet = false ∨
        ∀ q ∈ as.map (fun e ↦ e.2.packet), stateful E q = false := by
      rcases horder with he | hall
      · exact .inl (he e hfind)
      · refine .inr fun q hq ↦ ?_
        obtain ⟨x, hx, rfl⟩ := List.mem_map.mp hq
        exact hall x (hearlier ▸ hx)
    obtain ⟨s₁, hone, hrest⟩ := sendAll_overtake hE hpack' horder' (by simp) hwait
    refine ⟨⟨s₁, ?_, ?_⟩, ?_⟩
    · rw [List.map_append]
      exact sendAll_append.mpr ⟨s, st.sent, [e.2], hsent, hone, rfl⟩
    · simpa only [Senders.waiting, herase, List.map_append] using hrest
    · simp only [Senders.waiting, herase, List.map_append, List.map_cons, List.map_nil]
      refine .trans ?_ honce
      rw [List.append_assoc, List.singleton_append]
      exact List.perm_middle.symm.append_left _

/-- Every interleaving whose appends are in order keeps the senders serial. -/
theorem serial_of_run (hE : E.Sound) {acts : List (Action T P)} {st st' : Senders T P}
    {calls : List P} (h : Serial E st calls)
    (hpack : ∀ p ∈ calls ++ acts.filterMap Action.packet?, (E.ops.pack p).2 = true)
    (horder : OrderedRun E st acts) (hrun : st.run E acts = some st') :
    Serial E st' (calls ++ acts.filterMap Action.packet?) := by
  induction acts generalizing st calls with
  | nil =>
      obtain rfl := Option.some.inj hrun
      simpa using h
  | cons act acts ih =>
      obtain ⟨st₁, hstep, hrest⟩ := Option.bind_eq_some_iff.mp hrun
      cases act with
      | modify t p =>
          have hcalls : calls ++ (Action.modify t p :: acts).filterMap Action.packet? =
              calls ++ [p] ++ acts.filterMap Action.packet? := by
            simp [Action.packet?]
          rw [hcalls] at hpack ⊢
          exact ih (h.modify hstep) hpack (horder.2 st₁ hstep) hrest
      | append t =>
          rw [List.filterMap_cons_none rfl] at hpack ⊢
          exact ih (h.append hE (fun p hp ↦ hpack p (List.mem_append_left _ hp))
            (horder.1 t rfl) hstep) hpack (horder.2 st₁ hstep) hrest

/-- Any number of threads, in every interleaving whose appends are in order:
the peer publishes the packets of the send buffer in its order and answers no
call with an error, and every packet is in the send buffer or still waiting,
once. -/
theorem onRecvAll_concurrent (hE : E.Sound) {acts : List (Action T P)} {st : Senders T P}
    (hrun : Senders.initial.run E acts = some st)
    (hreg : ∀ p ∈ acts.filterMap Action.packet?, ∃ mp, Registered E p mp)
    (horder : OrderedRun E Senders.initial acts)
    (hlen : ∀ f ∈ st.sent, f.wire.length ≤ E.cfg.maxPacketLength ∧ f.wire.length < 2 ^ 32)
    {cs : List (List UInt8)} (hne : ∀ c ∈ cs, c ≠ []) (hcs : cs.flatten = wires st.sent)
    (hsep : Separated st.sent 0 cs) :
    (∃ fuel r, onRecvAll E fuel .initial cs =
      some (cs.map fun _ ↦ .returned .ok, ⟨⟨[], 0⟩, r⟩, st.sent.map Frame.packet)) ∧
      (st.sent.map Frame.packet ++ st.waiting).Perm (acts.filterMap Action.packet?) := by
  have hserial := serial_of_run hE Serial.initial
    (fun p hp ↦ (hreg p (by simpa using hp)).elim fun _ hmp ↦ hmp.packs) horder hrun
  rw [List.nil_append] at hserial
  obtain ⟨⟨s, hsent, -⟩, honce⟩ := hserial
  refine ⟨?_, honce⟩
  obtain ⟨r, -, hchain⟩ := chain_sendAll hE
    (fun p hp ↦ hreg p (honce.subset (List.mem_append_left _ hp))) InStep.initial hsent hlen
  obtain ⟨fuel, hout⟩ := hchain.onRecvAll_wires hne hcs hsep
  exact ⟨fuel, r, hout⟩

/-! ## Two threads -/

open WiseKernel.Packing

/-- Both threads append in the order in which they took their numbers. -/
theorem onRecvAll_concurrent_inOrder :
    ∃ fuel r, onRecvAll sequencedEnv fuel .initial
        [[10, 0, 0, 0, 0x01, 0x00, 0x01, 0x02, 5, 1], [10, 0, 0, 0, 0x01, 0x00, 0x01, 0x02, 6, 2]] =
      some ([.returned .ok, .returned .ok], ⟨⟨[], 0⟩, r⟩, [level 5, level 6]) := by
  have horder : OrderedRun sequencedEnv (Senders.initial : Senders ℕ GeneratedPacket)
      [.modify 0 (level 5), .modify 1 (level 6), .append 0, .append 1] := by
    refine ⟨nofun, fun st₁ h₁ ↦ ⟨nofun, fun st₂ h₂ ↦
      ⟨fun t h ↦ ?_, fun st₃ h₃ ↦ ⟨fun t h ↦ ?_, fun _ _ ↦ trivial⟩⟩⟩⟩ <;>
    obtain rfl := Option.some.inj h₁ <;>
    obtain rfl := Option.some.inj h₂ <;>
    cases h
    · exact .inr fun e he ↦ absurd (show e ∈ [] from he) List.not_mem_nil
    · obtain rfl := Option.some.inj h₃
      exact .inr fun e he ↦ absurd (show e ∈ [] from he) List.not_mem_nil
  have hrun : (Senders.initial : Senders ℕ GeneratedPacket).run sequencedEnv
      [.modify 0 (level 5), .modify 1 (level 6), .append 0, .append 1] =
        some ⟨⟨⟨3, 1⟩, .initial⟩, [], sequencedFrames⟩ := rfl
  have hcs : (sequencedFrames.map Frame.wire).flatten = wires sequencedFrames := rfl
  have hreg : ∀ p ∈ [level 5, level 6], ∃ mp, Registered sequencedEnv p mp := by
    rintro p (_ | ⟨_, _ | ⟨_, hp⟩⟩)
    · exact registered_level 5
    · exact registered_level 6
    · exact absurd hp List.not_mem_nil
  exact (onRecvAll_concurrent sequencedEnv_sound hrun hreg
    horder (by decide) (by decide) hcs ⟨by decide, by decide, trivial⟩).1

/-- The second thread overtakes the first, and the peer refuses the number. -/
theorem onRecv_overtaken :
    ∃ st proto, (Senders.initial : Senders ℕ GeneratedPacket).run sequencedEnv
        [.modify 0 (level 5), .modify 1 (level 6), .append 1, .append 0] = some st ∧
      st.waiting = [] ∧
      wires st.sent = [10, 0, 0, 0, 0x01, 0x00, 0x01, 0x02, 6, 2] ++
        [10, 0, 0, 0, 0x01, 0x00, 0x01, 0x02, 5, 1] ∧
      onRecv sequencedEnv 2 .initial [10, 0, 0, 0, 0x01, 0x00, 0x01, 0x02, 6, 2] =
        some (.returned (.fail .failInvalidMessageSequence), proto, []) :=
  ⟨_, _, rfl, rfl, rfl, rfl⟩

end WiseKernel.Net
