import WiseKernel.Client.Lockstep
import WiseKernel.Lib.Blocks
import Mathlib.Data.List.Induction

/-!
# The client's stream in chunks

Frames without modifiers, cut into chunks that are passed to one `OnRecv`.
The loop does not wait for a body, and what is left is copied to the caller's
array and not to the front of the receive buffer.  A run is right as long as
every call leaves less than a header, and these bytes are at the front anyway.
-/

namespace WiseKernel.Client

open WiseKernel.Lib WiseKernel.Net

variable {P S : Type} {E : Env P S}

/-! ## The stream -/

/-- The frame of a packet that no modifier changes. -/
def frame (E : Env P S) (packet : P) : List UInt8 :=
  header (8 + (E.ops.pack packet).1.length) (E.ops.topic packet) ++ (E.ops.pack packet).1

theorem length_frame (packet : P) :
    (frame E packet).length = 8 + (E.ops.pack packet).1.length := by
  simp [frame]

/-- A registered packet without modifiers in force whose frame is not larger
than the receiver accepts. -/
structure Plain (E : Env P S) (packet : P) : Prop where
  registered : ∃ created, Registered E packet (E.ops.pack packet).1 created
  off : E.settings.inForce (E.ops.flags packet) = {}
  fits : ((frame E packet).length : ℤ) ≤ E.settings.maxPacketSize

/-- `OnSend` for one packet after another, as long as it succeeds. -/
def sendAll (E : Env P S) : Modifiers → BackedStream → List P → Call (Modifiers × BackedStream)
  | m, sendBuf, [] => .ok (m, sendBuf)
  | m, sendBuf, packet :: packets => do
      let (_, m, sendBuf) ← onSend E m packet sendBuf
      sendAll E m sendBuf packets

theorem onSend_plain {packet : P} (h : Plain E packet) {m : Modifiers}
    {sendBuf : BackedStream} (hin : sendBuf.position ≤ sendBuf.length) :
    ∃ sendBuf', onSend E m packet sendBuf = .ok (.success, m, sendBuf') ∧
      Filling sendBuf' (sendBuf.buffer.take sendBuf.position) (8 + (E.ops.pack packet).1.length)
        (E.ops.topic packet) (E.ops.pack packet).1 := by
  obtain ⟨created, hreg⟩ := h.registered
  have hwire : wire E.runtime (E.settings.inForce (E.ops.flags packet)) m (E.ops.pack packet).1 =
      (E.ops.pack packet).1 := by
    rw [h.off]
    rfl
  have hlt : 8 + (E.ops.pack packet).1.length < 2 ^ 32 := by
    have hfits := h.fits
    have hmax := E.settings.maxPacketSize_lt
    rw [length_frame] at hfits
    omega
  obtain ⟨s', hsend, hfill⟩ := onSend_eq (m := m)
    (fun hon ↦ absurd hon (by simp [h.off])) hreg.packs
    (fun hon ↦ absurd hon (by simp [h.off])) (by rw [hwire]; exact hlt) hin
  rw [hwire] at hfill
  refine ⟨s', ?_, hfill⟩
  rw [hsend, h.off]
  rfl

/-- The send buffer gets the frames one behind the other. -/
theorem sendAll_plain {packets : List P} (h : ∀ packet ∈ packets, Plain E packet)
    {m : Modifiers} {sendBuf : BackedStream}
    (hin : sendBuf.position ≤ sendBuf.length) :
    ∃ sendBuf', sendAll E m sendBuf packets = .ok (m, sendBuf') ∧
      sendBuf'.position = sendBuf.position + (packets.map (frame E)).flatten.length ∧
      ∃ rest, sendBuf'.buffer = sendBuf.buffer.take sendBuf.position ++
        (packets.map (frame E)).flatten ++ rest := by
  induction packets generalizing sendBuf with
  | nil =>
      refine ⟨sendBuf, rfl, rfl, sendBuf.buffer.drop sendBuf.position, ?_⟩
      simp
  | cons packet packets ih =>
      obtain ⟨s₁, hsend, hfill⟩ := onSend_plain (h packet List.mem_cons_self) (m := m) hin
      obtain ⟨s', hall, hpos, rest, hbuffer⟩ :=
        ih (fun q hq ↦ h q (List.mem_cons_of_mem _ hq)) hfill.inside
      have hpre := sendBuf.position_eq hin
      have hpos₁ : s₁.position =
          (sendBuf.buffer.take sendBuf.position ++ frame E packet).length := by
        rw [hfill.position, List.length_append, length_frame, Nat.add_assoc]
      have hfront : s₁.buffer.take s₁.position =
          sendBuf.buffer.take sendBuf.position ++ frame E packet := by
        obtain ⟨rest₁, hbuffer₁⟩ := hfill.framed
        rw [hpos₁, hbuffer₁, List.append_assoc (List.take _ _) (header _ _)]
        exact List.take_left
      refine ⟨s', ?_, ?_, rest, ?_⟩
      · rw [sendAll, hsend]
        exact hall
      · rw [hpos, hpos₁, List.length_append, ← hpre, List.map_cons, List.flatten_cons,
          List.length_append, Nat.add_assoc]
      · rw [hbuffer, hfront, List.map_cons, List.flatten_cons, List.append_assoc _ (frame _ _)]

theorem appended_sendAll {packets : List P} (h : ∀ packet ∈ packets, Plain E packet)
    {m m' : Modifiers} {sendBuf sendBuf' : BackedStream}
    (hin : sendBuf.position ≤ sendBuf.length)
    (hsent : sendAll E m sendBuf packets = .ok (m', sendBuf')) :
    appended sendBuf sendBuf' = (packets.map (frame E)).flatten := by
  obtain ⟨s', hall, hpos, rest, hbuffer⟩ := sendAll_plain h (m := m) hin
  obtain rfl : s' = sendBuf' := (Prod.ext_iff.mp (Except.ok.inj (hall.symm.trans hsent))).2
  rw [appended, hbuffer]
  exact window_append _ _ _ (sendBuf.position_eq hin) (by omega)

/-! ## One call -/

/-- A stretch of whole frames and the start of a header behind them. -/
theorem onRecvLoop_plain {packets : List P} (h : ∀ packet ∈ packets, Plain E packet)
    {st : LoopState P S} {pre tail rest : List UInt8}
    (hbuffer : st.recvBuf.buffer = pre ++ (packets.map (frame E)).flatten ++ tail ++ rest)
    (hpos : st.currentPosition = pre.length) (htotal : st.totalProcessedLen = pre.length)
    {recvBufLength : ℕ}
    (hlength : recvBufLength = pre.length + (packets.map (frame E)).flatten.length + tail.length)
    (hin : recvBufLength ≤ st.recvBuf.length) (htail : tail.length < 8) {buf : List UInt8}
    (hfits : tail.length ≤ buf.length) {fuel : ℕ} (hfuel : packets.length < fuel) :
    ∃ o, onRecvLoop E recvBufLength buf fuel st = some o ∧ o.exit = .returned .success ∧
      o.posted = st.posted ++ packets ∧ o.proto.recvBuf.position = tail.length ∧
      o.proto.recvBuf.length = st.recvBuf.length ∧
      o.proto.recvBuf.buffer = st.recvBuf.buffer := by
  induction packets generalizing st pre fuel with
  | nil =>
      obtain ⟨fuel, rfl⟩ : ∃ k, fuel = k + 1 := ⟨fuel - 1, by omega⟩
      simp only [List.map_nil, List.flatten_nil, List.length_nil, List.append_nil]
        at hbuffer hlength
      have hleave : onRecvStep E recvBufLength st = .leave := by
        rw [onRecvStep, if_pos]
        change _ < (8 : ℤ)
        omega
      rw [onRecvLoop, hleave]
      dsimp only
      rw [carryOver_eq hbuffer htotal (by omega) hfits]
      exact ⟨_, rfl, rfl, (List.append_nil _).symm, rfl, rfl, rfl⟩
  | cons packet packets ih =>
      obtain ⟨fuel, rfl⟩ : ∃ k, fuel = k + 1 := ⟨fuel - 1, by omega⟩
      obtain ⟨⟨created, hreg⟩, hoff, hmax⟩ := h packet List.mem_cons_self
      set body := (E.ops.pack packet).1 with hbody
      set frames := (packets.map (frame E)).flatten with hframes
      rw [length_frame] at hmax
      rw [List.map_cons, List.flatten_cons, ← hframes] at hbuffer hlength
      rw [List.length_append, length_frame, ← hbody] at hlength
      have hframed : Framed st.recvBuf pre (8 + body.length) (E.ops.topic packet) body := by
        refine ⟨frames ++ tail ++ rest, ?_⟩
        rw [hbuffer, frame]
        simp [hbody]
      set r : Received := ⟨.success, st.mods, st.recvBuf⟩ with hr
      have hmod : modifyRecv E.runtime E.settings (E.ops.flags created) st.mods st.recvBuf
          st.currentPosition = .ok r := by
        rw [modifyRecv, hreg.flags, hoff]
        rfl
      have hinside : pre.length + 8 + body.length ≤ r.packetBuf.length := by
        change _ ≤ st.recvBuf.length
        omega
      obtain ⟨st', hdeliver, hcur', htotal', hposted', -, hbuffer', hlength'⟩ :=
        deliver_eq hreg (r := r) hpos hframed hinside (8 + body.length)
      have hstep : onRecvStep E recvBufLength st = .next st' := by
        rw [← hdeliver]
        exact onRecvStep_eq hpos hframed (by omega) hmax hreg.creates hmod rfl
      rw [onRecvLoop, hstep]
      dsimp only
      have hpre : (pre ++ frame E packet).length = pre.length + (8 + body.length) := by
        rw [List.length_append, length_frame]
      have hbuffer'' : st'.recvBuf.buffer = pre ++ frame E packet ++ frames ++ tail ++ rest := by
        rw [hbuffer']
        change st.recvBuf.buffer = _
        rw [hbuffer]
        simp
      have hfuel' : packets.length < fuel := by
        simp only [List.length_cons] at hfuel
        omega
      obtain ⟨o, hrun, hexit, hposted, hposition, hlen, hbuf⟩ :=
        ih (fun q hq ↦ h q (List.mem_cons_of_mem _ hq)) hbuffer'' (by rw [hcur', hpos, hpre])
          (by rw [htotal', htotal, hpre]) (by omega) (by rw [hlength']; exact hin) hfuel'
      refine ⟨o, hrun, hexit, ?_, hposition, hlen.trans hlength', hbuf.trans hbuffer'⟩
      rw [hposted, hposted', List.append_assoc]
      rfl

/-- The receive buffer has the bytes at its front, and the next ones go behind
them. -/
structure Holds (proto : Protocol S) (tail : List UInt8) : Prop where
  position : proto.recvBuf.position = tail.length
  inside : proto.recvBuf.position ≤ proto.recvBuf.length
  front : proto.recvBuf.buffer.take proto.recvBuf.position = tail

/-- The bytes that are left behind the frames fit into the caller's array: the
first frame was not complete before. -/
theorem length_pending_le {ws : List (List UInt8)} {tail chunk : List UInt8}
    (hinc : Incomplete ws tail) (hpre : tail ++ chunk <+: ws.flatten)
    (hdone : complete ws (tail ++ chunk).length ≠ 0) :
    (pending ws (tail ++ chunk)).length ≤ chunk.length := by
  obtain ⟨hcut, -, -⟩ := complete_pending hpre
  cases ws with
  | nil => exact absurd rfl hdone
  | cons w ws =>
      obtain ⟨k, hk⟩ := Nat.exists_eq_succ_of_ne_zero hdone
      have hlen := congrArg List.length hcut
      rw [hk, List.take_succ_cons] at hlen
      simp only [List.flatten_cons, List.length_append] at hlen
      have hinc : tail.length < w.length := hinc
      omega

theorem onRecv_plain {packets : List P} (h : ∀ packet ∈ packets, Plain E packet)
    {proto : Protocol S} {tail : List UInt8} (hholds : Holds proto tail)
    (hinc : Incomplete (packets.map (frame E)) tail) {buf : List UInt8} {recvLen : ℕ}
    (hle : recvLen ≤ buf.length)
    (hpre : tail ++ buf.take recvLen <+: (packets.map (frame E)).flatten)
    (hshort : (pending (packets.map (frame E)) (tail ++ buf.take recvLen)).length < 8)
    (hfront : pending (packets.map (frame E)) (tail ++ buf.take recvLen) <+:
      tail ++ buf.take recvLen) {fuel : ℕ} (hfuel : packets.length < fuel) :
    ∃ o, onRecv E fuel proto buf recvLen = some o ∧ o.exit = .returned .success ∧
      o.posted =
        packets.take (complete (packets.map (frame E)) (tail ++ buf.take recvLen).length) ∧
      Holds o.proto (pending (packets.map (frame E)) (tail ++ buf.take recvLen)) := by
  set ws := packets.map (frame E) with hws
  set chunk := buf.take recvLen with hchunk
  set data := tail ++ chunk with hdata
  set k := complete ws data.length with hk
  set tail' := pending ws data with htail'
  obtain ⟨hcut, -, hinc'⟩ := complete_pending hpre
  rw [← hk, ← htail'] at hcut
  have hchunkLen : chunk.length = recvLen := by simp [hchunk, hle]
  -- the new bytes go behind those that were kept
  obtain ⟨rest, hbuffer, hposition, hinside⟩ := BackedStream.write_cut E.runtime.grow tail
    (proto.recvBuf.buffer.drop proto.recvBuf.position)
    (by rw [← hholds.front, List.take_append_drop]) hholds.position hholds.inside chunk
  rw [← hdata] at hbuffer
  rw [← List.length_append, ← hdata] at hposition
  set recvBuf := proto.recvBuf.write E.runtime.grow chunk with hrecvBuf
  have hfront' : ∀ s : BackedStream, s.buffer = recvBuf.buffer →
      s.buffer.take tail'.length = tail' := by
    intro s hs
    obtain ⟨more, hmore⟩ := hfront
    rw [hs, hbuffer, ← hmore, List.append_assoc, List.take_left]
  unfold onRecv
  rw [if_neg (by omega)]
  dsimp only
  rw [Protocol.received, ← hchunk, ← hrecvBuf, hposition]
  by_cases hheader : (data.length : ℤ) < headerSize
  · -- less than a header has arrived, so no frame is complete
    have hlt : data.length < 8 := by
      change (data.length : ℤ) < 8 at hheader
      omega
    have hzero : k = 0 := by
      rw [hk, hws]
      cases packets with
      | nil => rfl
      | cons packet packets =>
          rw [List.map_cons, complete, if_neg]
          rw [length_frame]
          omega
    rw [hzero, List.take_zero, List.flatten_nil, List.nil_append] at hcut
    rw [if_pos hheader, hzero]
    refine ⟨_, rfl, rfl, rfl, ?_, hinside, ?_⟩
    · rw [← hcut]
      exact hposition
    · change recvBuf.buffer.take recvBuf.position = _
      rw [hposition, hcut]
      exact hfront' recvBuf rfl
  · rw [if_neg hheader]
    have hpos : k ≠ 0 := by
      intro hzero
      rw [hzero, List.take_zero, List.flatten_nil, List.nil_append] at hcut
      rw [← hcut] at hshort
      change ¬ (data.length : ℤ) < 8 at hheader
      omega
    have htake : ws.take k = (packets.take k).map (frame E) := by rw [hws, List.map_take]
    rw [htake] at hcut
    set st : LoopState P S := proto.enter E.runtime buf recvLen with hst
    have hwhole : st.recvBuf.buffer =
        [] ++ ((packets.take k).map (frame E)).flatten ++ tail' ++ rest := by
      rw [List.nil_append, ← hcut]
      exact hbuffer
    have hstart : st.currentPosition = ([] : List UInt8).length := rfl
    have htotal : st.totalProcessedLen = ([] : List UInt8).length := rfl
    have hlength : data.length = ([] : List UInt8).length +
        ((packets.take k).map (frame E)).flatten.length + tail'.length := by
      rw [List.length_nil, Nat.zero_add, ← List.length_append, ← hcut]
    have hin : data.length ≤ st.recvBuf.length := by
      rw [← hposition]
      exact hinside
    have hfits : tail'.length ≤ buf.length := by
      rw [← hchunkLen] at hle
      exact (length_pending_le hinc hpre hpos).trans hle
    have hfuel' : (packets.take k).length < fuel := by
      rw [List.length_take]
      omega
    obtain ⟨o, hrun, hexit, hposted, hpos', hlen', hbuf'⟩ := onRecvLoop_plain
      (fun q hq ↦ h q (List.mem_of_mem_take hq)) hwhole hstart htotal hlength hin hshort hfits
      hfuel'
    refine ⟨o, hrun, hexit, hposted, hpos', ?_, ?_⟩
    · rw [hpos', hlen']
      have hle' : tail'.length ≤ data.length := hfront.length_le
      rw [← hposition] at hle'
      exact hle'.trans hinside
    · rw [hpos']
      exact hfront' _ hbuf'

/-! ## Runs -/

/-- A call of `OnRecv`: the caller's array and the number of bytes received. -/
abbrev RecvCall := List UInt8 × ℕ

/-- The bytes that the calls pass in. -/
def arrived (calls : List RecvCall) : List UInt8 :=
  (calls.map fun c ↦ c.1.take c.2).flatten

/-- One `OnRecv` after another on the same object. -/
def onRecvAll (E : Env P S) (fuel : ℕ) :
    Protocol S → List RecvCall → Option (List Exit × Protocol S × List P)
  | proto, [] => some ([], proto, [])
  | proto, (buf, recvLen) :: calls => do
      let o ← onRecv E fuel proto buf recvLen
      let (exits, proto, posted) ← onRecvAll E fuel o.proto calls
      return (o.exit :: exits, proto, o.posted ++ posted)

theorem onRecvAll_concat {fuel : ℕ} {proto proto' : Protocol S} {calls : List RecvCall}
    {exits : List Exit} {posted : List P}
    (hrun : onRecvAll E fuel proto calls = some (exits, proto', posted)) {buf : List UInt8}
    {recvLen : ℕ} {o : Outcome P S} (hcall : onRecv E fuel proto' buf recvLen = some o) :
    onRecvAll E fuel proto (calls ++ [(buf, recvLen)]) =
      some (exits ++ [o.exit], o.proto, posted ++ o.posted) := by
  induction calls generalizing proto exits posted with
  | nil =>
      obtain ⟨rfl, rfl, rfl⟩ : [] = exits ∧ proto = proto' ∧ [] = posted := by
        simpa [onRecvAll] using hrun
      simp [onRecvAll, hcall]
  | cons c calls ih =>
      obtain ⟨buf₁, recvLen₁⟩ := c
      simp only [onRecvAll, Option.bind_eq_bind, Option.bind_eq_some_iff, Option.pure_def,
        Option.some.injEq, Prod.exists, Prod.mk.injEq] at hrun
      obtain ⟨o₁, hcall₁, exits₁, proto₁, posted₁, hrun₁, rfl, rfl, rfl⟩ := hrun
      simp [onRecvAll, hcall₁, ih hrun₁]

/-- A call leaves less than a header of the frame that is not complete, and
these bytes are the first of all that it had. -/
structure LeavesFront (ws : List (List UInt8)) (before chunk : List UInt8) : Prop where
  short : (pending ws (before ++ chunk)).length < 8
  front : pending ws (before ++ chunk) <+: pending ws before ++ chunk

/-- Every run of calls that get the stream of `OnSend` in pieces. -/
theorem onRecvAll_chunks {packets : List P} (h : ∀ packet ∈ packets, Plain E packet)
    {m m' : Modifiers} {sendBuf sendBuf' : BackedStream}
    (hin : sendBuf.position ≤ sendBuf.length)
    (hsent : sendAll E m sendBuf packets = .ok (m', sendBuf')) {calls : List RecvCall}
    (hlen : ∀ c ∈ calls, c.2 ≤ c.1.length) (hstream : arrived calls <+: appended sendBuf sendBuf')
    (hcalls : ∀ before c after, calls = before ++ c :: after →
      LeavesFront (packets.map (frame E)) (arrived before) (c.1.take c.2)) (packer : S)
    {fuel : ℕ} (hfuel : packets.length < fuel) :
    ∃ proto, onRecvAll E fuel (.initial packer) calls =
        some (calls.map fun _ ↦ .returned .success, proto,
          packets.take (complete (packets.map (frame E)) (arrived calls).length)) ∧
      Holds proto (pending (packets.map (frame E)) (arrived calls)) := by
  rw [appended_sendAll h hin hsent] at hstream
  set ws := packets.map (frame E) with hws
  -- from the end: the last call finds what the calls before it have left
  induction calls using List.reverseRecOn with
  | nil =>
      have hzero : complete ws 0 = 0 := by
        rw [hws]
        cases packets with
        | nil => rfl
        | cons packet packets => simp [complete, length_frame]
      refine ⟨.initial packer, ?_, ?_⟩
      · simp [onRecvAll, arrived, hzero]
      · simp only [arrived, List.map_nil, List.flatten_nil, pending, List.drop_nil]
        exact ⟨rfl, Nat.le_refl 0, rfl⟩
  | append_singleton calls c ih =>
      obtain ⟨buf, recvLen⟩ := c
      have harrived : arrived (calls ++ [(buf, recvLen)]) = arrived calls ++ buf.take recvLen := by
        simp [arrived]
      rw [harrived] at hstream ⊢
      obtain ⟨proto, hrun, hholds⟩ := ih (fun c hc ↦ hlen c (by simp [hc]))
        ((List.prefix_append _ _).trans hstream)
        (fun before c after hsplit ↦ hcalls before c (after ++ [(buf, recvLen)]) (by simp [hsplit]))
      obtain ⟨hshort, hfront⟩ := hcalls calls (buf, recvLen) [] rfl
      dsimp only at hshort hfront
      obtain ⟨hpre, hsum, hpending⟩ := complete_more hstream
      obtain ⟨-, -, hinc⟩ := complete_pending ((List.prefix_append _ _).trans hstream)
      set k := complete ws (arrived calls).length with hk
      have hdrop : ws.drop k = (packets.drop k).map (frame E) := by rw [hws, List.map_drop]
      rw [hpending] at hshort hfront ⊢
      rw [hdrop] at hpre hinc hshort hfront hsum ⊢
      have hfuel' : (packets.drop k).length < fuel := by
        rw [List.length_drop]
        omega
      obtain ⟨o, hcall, hexit, hposted, hholds'⟩ := onRecv_plain
        (fun q hq ↦ h q (List.mem_of_mem_drop hq)) hholds hinc (hlen (buf, recvLen) (by simp)) hpre
        hshort hfront hfuel'
      refine ⟨o.proto, ?_, hholds'⟩
      rw [onRecvAll_concat hrun hcall, hexit, hposted, hsum, List.take_add]
      simp

/-! ## Two frames, and one that is cut behind its header -/

theorem plain_record {p : List UInt8} (hp : p.length = 1) : Plain (recordEnv {} {} 1) p where
  registered := ⟨[], hp ▸ registered_record {} {}⟩
  off := rfl
  fits := by
    rw [length_frame]
    change ((8 + p.length : ℕ) : ℤ) ≤ 512 * 1024
    omega

/-- The second call completes the first frame, and the two bytes of the next
one are those that the buffer begins with. -/
theorem onRecvAll_chunks_record :
    ∃ sendBuf proto, sendAll (recordEnv {} {} 1) .initial .empty [[5], [6]] =
        .ok (.initial, sendBuf) ∧
      onRecvAll (recordEnv {} {} 1) 3 (.initial [0])
        [([9, 0], 2), ([0, 0, 0x01, 0x00, 0x01, 0x02, 5, 9, 0], 9)] =
          some ([.returned .success, .returned .success], proto, [[5]]) ∧
      Holds proto [9, 0] := by
  have hplain : ∀ p ∈ ([[5], [6]] : List (List UInt8)), Plain (recordEnv {} {} 1) p := by
    intro p hp
    apply plain_record
    rcases List.mem_pair.mp hp with rfl | rfl <;> rfl
  obtain ⟨sendBuf, hsent, -⟩ := sendAll_plain hplain (m := .initial)
    BackedStream.empty_inside
  have hstream : arrived [([9, 0], 2), ([0, 0, 0x01, 0x00, 0x01, 0x02, 5, 9, 0], 9)] <+:
      appended .empty sendBuf := by
    rw [appended_sendAll hplain BackedStream.empty_inside hsent]
    decide
  have hfuel : ([[5], [6]] : List (List UInt8)).length < 3 := by decide
  obtain ⟨proto, hrun, hholds⟩ :=
    onRecvAll_chunks hplain BackedStream.empty_inside hsent (by decide) hstream
    (by
      rintro (_ | ⟨c₁, _ | ⟨c₂, before⟩⟩) c after hsplit
      · simp only [List.nil_append, List.cons.injEq] at hsplit
        rw [← hsplit.1]
        exact ⟨by decide, by decide⟩
      · simp only [List.cons_append, List.nil_append, List.cons.injEq] at hsplit
        rw [← hsplit.1, ← hsplit.2.1]
        exact ⟨by decide, by decide⟩
      · simp at hsplit) [0] hfuel
  exact ⟨sendBuf, proto, hsent, hrun, hholds⟩

/-- The header arrives alone: a packet is posted before its byte is there, and
the call ends with an exception. -/
theorem onRecv_header_alone :
    Plain (recordEnv {} {} 1) [5] ∧
      (∃ sendBuf, sendAll (recordEnv {} {} 1) .initial .empty [[5]] = .ok (.initial, sendBuf) ∧
        appended .empty sendBuf = [9, 0, 0, 0, 0x01, 0x00, 0x01, 0x02] ++ [5]) ∧
      ∃ o, onRecv (recordEnv {} {} 1) 2 (.initial [0])
          [9, 0, 0, 0, 0x01, 0x00, 0x01, 0x02] 8 = some o ∧
        o.exit = .faulted .outside ∧ o.posted = [[0]] := by
  have hplain : ∀ p ∈ ([[5]] : List (List UInt8)), Plain (recordEnv {} {} 1) p := by
    intro p hp
    obtain rfl := List.mem_singleton.mp hp
    exact plain_record rfl
  obtain ⟨sendBuf, hsent, -⟩ := sendAll_plain hplain (m := .initial)
    BackedStream.empty_inside
  refine ⟨plain_record rfl, ⟨sendBuf, hsent, ?_⟩, ?_⟩
  · rw [appended_sendAll hplain BackedStream.empty_inside hsent]
    rfl
  · have hrun : (onRecv (recordEnv {} {} 1) 2 (.initial [0])
        [9, 0, 0, 0, 0x01, 0x00, 0x01, 0x02] 8).map (fun o ↦ (o.exit, o.posted)) =
          some (.faulted .outside, [[0]]) := by decide +kernel
    obtain ⟨o, hcall, ho⟩ := Option.map_eq_some_iff.mp hrun
    obtain ⟨hexit, hposted⟩ := Prod.mk.inj ho
    exact ⟨o, hcall, hexit, hposted⟩

end WiseKernel.Client
