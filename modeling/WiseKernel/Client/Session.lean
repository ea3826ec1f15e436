import Mathlib.Data.List.Infix
import WiseKernel.Client.Interop
import WiseKernel.Lib.Runs
import WiseKernel.Net.ModifiedStreams

/-!
# A session of the client

`Session.Send` adds a packet to one list while another one is being sent, and `BeginSend` swaps
the two.  Any number of threads call `Send`; what a lock holds together is one step, and so is
each `Protocol.OnSend` of the loop, which runs on one thread at a time.
-/

namespace WiseKernel.Client

open WiseKernel.Lib WiseKernel.Net

/-! ## The stream of a sender -/

section

variable {P S : Type} (E : Env P S)

/-- The options in force for a packet. -/
def Env.on (packet : P) : Flags := E.settings.inForce (E.ops.flags packet)

def Env.body (packet : P) : List UInt8 := (E.ops.pack packet).1

/-- The modifiers after a message. -/
def Env.sent (m : Modifiers) (packet : P) : Modifiers :=
  m.sent E.runtime E.settings (E.on packet) (E.body packet)

/-- The frame of a packet, from the modifiers that send it. -/
def Env.wire (m : Modifiers) (packet : P) : List UInt8 :=
  header (8 + (Client.wire E.runtime (E.on packet) m (E.body packet)).length)
      (E.ops.topic packet) ++
    Client.wire E.runtime (E.on packet) m (E.body packet)

def Env.sentAll (m : Modifiers) (packets : List P) : Modifiers := packets.foldl E.sent m

/-- The frames of packets one behind the other. -/
def Env.stream : Modifiers → List P → List UInt8
  | _, [] => []
  | m, packet :: packets => E.wire m packet ++ Env.stream (E.sent m packet) packets

variable {E} {m : Modifiers} {packet : P} {packets packets' : List P}

theorem stream_append :
    E.stream m (packets ++ packets') =
      E.stream m packets ++ E.stream (E.sentAll m packets) packets' := by
  induction packets generalizing m with
  | nil => rfl
  | cons packet packets ih =>
      rw [List.cons_append, Env.stream, Env.stream, ih, List.append_assoc]
      rfl

theorem sentAll_append :
    E.sentAll m (packets ++ packets') = E.sentAll (E.sentAll m packets) packets' :=
  List.foldl_append

theorem stream_concat :
    E.stream m (packets ++ [packet]) =
      E.stream m packets ++ E.wire (E.sentAll m packets) packet := by
  rw [stream_append, Env.stream, Env.stream, List.append_nil]

/-- A packet that `OnSend` accepts from every state of the modifiers. -/
structure Sendable (E : Env P S) (packet : P) : Prop where
  packs : (E.ops.pack packet).2 = true
  lawful : (E.on packet).enableCipher = true → E.runtime.Lawful
  divides : ∀ c, Modifiers.Divide E (E.ops.flags packet) c
  length : ∀ m, 8 + (Client.wire E.runtime (E.on packet) m (E.body packet)).length < 2 ^ 32

/-- `OnSend` appends the frame to what stands before the position. -/
theorem onSend_front (h : Sendable E packet) (m : Modifiers) {sendBuf : BackedStream}
    (hin : sendBuf.position ≤ sendBuf.length) :
    ∃ sendBuf', onSend E m packet sendBuf = .ok (.success, E.sent m packet, sendBuf') ∧
      sendBuf'.position ≤ sendBuf'.length ∧
      sendBuf'.buffer.take sendBuf'.position =
        sendBuf.buffer.take sendBuf.position ++ E.wire m packet := by
  obtain ⟨sendBuf', hsend, hfill⟩ := onSend_eq h.lawful
    (show E.ops.pack packet = (E.body packet, true) from Prod.ext rfl h.packs)
    (h.divides _) (h.length m) hin
  refine ⟨sendBuf', hsend, hfill.inside, ?_⟩
  obtain ⟨rest, hbuffer⟩ := hfill.framed
  have hlength : sendBuf'.position =
      (sendBuf.buffer.take sendBuf.position ++ E.wire m packet).length := by
    rw [hfill.position, List.length_append, Env.wire, List.length_append, length_header,
      Nat.add_assoc]
    rfl
  rw [hlength, hbuffer, List.append_assoc (List.take _ _) (header _ _)]
  exact List.take_left

end

def numberedEnv : Env (List UInt8) (List UInt8) := pairedEnv sampleBotan ⟨true, false, false⟩ 1

theorem on_numbered (packet : List UInt8) : numberedEnv.on packet = ⟨true, false, false⟩ := rfl

theorem numberedEnv_lawful : numberedEnv.runtime.Lawful :=
  Runtime.ofBotan_lawful sampleBotan_lawful

theorem sendable_numbered {packet : List UInt8} (h : packet.length = 1) :
    Sendable numberedEnv packet where
  packs := rfl
  lawful _ := numberedEnv_lawful
  divides _ hon := by cases hon
  length m := by
    have hbody : (numberedEnv.body packet).length = 1 := h
    rw [length_wire numberedEnv_lawful, hbody, on_numbered]
    decide

/-! ## Sessions -/

/-- `Session`, as far as it sends.  A list that nobody has made is `none`; `checked` threads have
found the session not disposed, `callers` are before the lock of `BeginSend`, `packing` is the
index of the one in the loop, and `writing` says that a send of the socket is under way.
`accepted` and `written` are what `Add` has taken and what the socket was given. -/
structure Session (P : Type) where
  packetsSending : Option (List P)
  packetsAccumulated : Option (List P)
  sending : Bool
  disposed : Bool
  mods : Modifiers
  sendBuffer : BackedStream
  checked : ℕ
  callers : ℕ
  packing : Option ℕ
  writing : Bool
  accepted : List P
  written : List UInt8

namespace Session

variable {P S : Type}

/-- The constructor, which makes neither list; a subclass can. -/
def initial (lists : Option (List P)) : Session P :=
  ⟨lists, lists, false, false, .initial, .empty, 0, 0, none, false, [], []⟩

/-- How `Socket.BeginSend` and `Socket.EndSend` end: with an exception that is passed over, or
with one that is an error of the session. -/
inductive SocketResult where
  | ok
  | passedOver
  | failed
  deriving DecidableEq, Repr

inductive Action (P : Type) where
  | check
  | add (packet : P)
  | begin
  | pack
  | write (result : SocketResult)
  | completed (result : SocketResult)
  | dispose

/-- The first lock of `Send`. -/
def check (s : Session P) : Session P :=
  if s.disposed then s else { s with checked := s.checked + 1 }

/-- The second lock of `Send`; without a list it throws. -/
def add (s : Session P) (packet : P) : Option (Session P) :=
  if s.checked = 0 then none
  else
    match s.packetsAccumulated with
    | none => some { s with checked := s.checked - 1 }
    | some packets =>
        some { s with
          checked := s.checked - 1
          packetsAccumulated := some (packets ++ [packet])
          accepted := s.accepted ++ [packet]
          callers := if s.sending then s.callers else s.callers + 1 }

/-- The lock of `BeginSend`, and the rewind behind it. -/
def begin (s : Session P) : Option (Session P) :=
  if s.callers = 0 then none
  else if s.sending then some { s with callers := s.callers - 1 }
  else
    match s.packetsAccumulated, s.packetsSending with
    | none, _ => some { s with callers := s.callers - 1 }
    | some [], _ => some { s with callers := s.callers - 1 }
    | some (_ :: _), none => some { s with callers := s.callers - 1, sending := true }
    | some (packet :: packets), some _ =>
        some { s with
          callers := s.callers - 1
          sending := true
          packetsSending := some (packet :: packets)
          packetsAccumulated := some []
          sendBuffer := { s.sendBuffer with position := 0 }
          packing := some 0 }

/-- One round of the loop of `BeginSend`; on an error the session is disconnected, and an
exception leaves the call. -/
def pack (E : Env P S) (s : Session P) : Option (Session P) :=
  match s.packing, s.packetsSending with
  | some i, some packets =>
      match packets[i]? with
      | none => none
      | some packet =>
          match onSend E s.mods packet s.sendBuffer with
          | .error _ => some { s with packing := none }
          | .ok (code, mods, sendBuffer) =>
              some { s with
                mods := mods
                sendBuffer := sendBuffer
                packing := if code = .success then some (i + 1) else none }
  | _, _ => none

/-- The rest of `BeginSend`; on an error the network disposes the session. -/
def write (s : Session P) (result : SocketResult) : Option (Session P) :=
  match s.packing, s.packetsSending with
  | some i, some packets =>
      if i < packets.length then none
      else
        match result with
        | .ok =>
            some { s with
              packing := none
              writing := true
              written := s.written ++ s.sendBuffer.buffer.take s.sendBuffer.position }
        | .passedOver => some { s with packing := none }
        | .failed => some { s with packing := none, disposed := true }
  | _, _ => none

/-- `OnSendCompleted`, up to its call of `BeginSend`. -/
def completed (s : Session P) (result : SocketResult) : Option (Session P) :=
  if s.writing then
    match result with
    | .ok => some { s with writing := false, sending := false, callers := s.callers + 1 }
    | .passedOver => some { s with writing := false }
    | .failed => some { s with writing := false, disposed := true }
  else none

def step (E : Env P S) (s : Session P) : Action P → Option (Session P)
  | .check => some s.check
  | .add packet => s.add packet
  | .begin => s.begin
  | .pack => s.pack E
  | .write result => s.write result
  | .completed result => s.completed result
  | .dispose => some { s with disposed := true }

/-! ## Order -/

/-- The packets that `Send` is given can be sent. -/
def Sends (E : Env P S) (_ : Session P) : Action P → Prop
  | .add packet => Sendable E packet
  | _ => True

/-- Where the session is with the packets behind those that are done: the first list is done,
the second one is being sent. -/
inductive Phase (E : Env P S) (s : Session P) : List P → List P → Prop
  | idle {done : List P} (hsending : s.sending = false) (hpacking : s.packing = none)
      (hwriting : s.writing = false) (hmods : s.mods = E.sentAll .initial done) : Phase E s done []
  | packing {done current : List P} {i : ℕ} (hsending : s.sending = true)
      (hpacking : s.packing = some i) (hwriting : s.writing = false)
      (hcurrent : s.packetsSending = some current) (hi : i ≤ current.length)
      (hmods : s.mods = E.sentAll .initial (done ++ current.take i))
      (hfront : s.sendBuffer.buffer.take s.sendBuffer.position =
        E.stream (E.sentAll .initial done) (current.take i))
      (hinside : s.sendBuffer.position ≤ s.sendBuffer.length) : Phase E s done current
  | writing {done : List P} (hsending : s.sending = true) (hpacking : s.packing = none)
      (hwriting : s.writing = true) (hmods : s.mods = E.sentAll .initial done) : Phase E s done []
  | stuck {done current : List P} (hsending : s.sending = true) (hpacking : s.packing = none)
      (hwriting : s.writing = false) : Phase E s done current

/-- What `Send` has taken is done, being sent or waiting, in this order. -/
structure Inv (E : Env P S) (s : Session P) (done current waiting : List P) : Prop where
  made : s.packetsSending.isSome
  accumulated : s.packetsAccumulated = some waiting
  accepted : s.accepted = done ++ current ++ waiting
  sendable : ∀ packet ∈ s.accepted, Sendable E packet
  written : s.written = E.stream .initial done
  phase : Phase E s done current
  callers : s.sending = false → waiting ≠ [] → 0 < s.callers

variable {E : Env P S} {s s' : Session P} {a : Action P} {done current waiting : List P}

theorem Phase.congr (h : Phase E s done current) (hsending : s'.sending = s.sending)
    (hpacking : s'.packing = s.packing) (hwriting : s'.writing = s.writing)
    (hmods : s'.mods = s.mods) (hlist : s'.packetsSending = s.packetsSending)
    (hbuffer : s'.sendBuffer = s.sendBuffer) : Phase E s' done current := by
  cases h with
  | idle h₁ h₂ h₃ h₄ =>
      exact .idle (hsending.trans h₁) (hpacking.trans h₂) (hwriting.trans h₃) (hmods.trans h₄)
  | packing h₁ h₂ h₃ h₄ hi h₅ h₆ h₇ =>
      exact .packing (hsending.trans h₁) (hpacking.trans h₂) (hwriting.trans h₃)
        (hlist.trans h₄) hi (hmods.trans h₅) (hbuffer ▸ h₆) (hbuffer ▸ h₇)
  | writing h₁ h₂ h₃ h₄ =>
      exact .writing (hsending.trans h₁) (hpacking.trans h₂) (hwriting.trans h₃) (hmods.trans h₄)
  | stuck h₁ h₂ h₃ =>
      exact .stuck (hsending.trans h₁) (hpacking.trans h₂) (hwriting.trans h₃)

theorem Inv.check (h : Inv E s done current waiting) : Inv E s.check done current waiting := by
  rw [Session.check]
  split_ifs
  · exact h
  · exact ⟨h.made, h.accumulated, h.accepted, h.sendable, h.written,
      h.phase.congr rfl rfl rfl rfl rfl rfl, h.callers⟩

theorem Inv.add (h : Inv E s done current waiting) {packet : P} (hpacket : Sendable E packet)
    (hadd : s.add packet = some s') : Inv E s' done current (waiting ++ [packet]) := by
  rw [Session.add] at hadd
  by_cases hchecked : s.checked = 0
  · rw [if_pos hchecked] at hadd
    cases hadd
  rw [if_neg hchecked] at hadd
  simp only [h.accumulated, Option.some.injEq] at hadd
  subst hadd
  refine ⟨h.made, rfl, ?_, ?_, h.written, h.phase.congr rfl rfl rfl rfl rfl rfl, ?_⟩
  · simp only [h.accepted, List.append_assoc]
  · intro q hq
    rcases List.mem_append.mp hq with hq | hq
    · exact h.sendable q hq
    · rw [List.mem_singleton.mp hq]
      exact hpacket
  · intro hsending _
    have hsending : s.sending = false := hsending
    simp [hsending]

theorem Inv.begin (h : Inv E s done current waiting) (hbegin : s.begin = some s') :
    ∃ done current waiting, Inv E s' done current waiting := by
  rw [Session.begin] at hbegin
  split_ifs at hbegin with hcallers hsending
  · cases hbegin
    refine ⟨done, current, waiting, h.made, h.accumulated, h.accepted, h.sendable, h.written,
      h.phase.congr rfl rfl rfl rfl rfl rfl, fun hnot ↦ ?_⟩
    exact absurd (hsending.symm.trans hnot) (by simp)
  · simp only [h.accumulated] at hbegin
    obtain ⟨list, hlist⟩ := Option.isSome_iff_exists.mp h.made
    simp only [hlist] at hbegin
    cases waiting with
    | nil =>
        cases hbegin
        exact ⟨done, current, [], rfl, rfl, h.accepted, h.sendable, h.written,
          h.phase.congr rfl rfl rfl rfl hlist.symm rfl, fun _ hne ↦ absurd rfl hne⟩
    | cons packet waiting =>
        cases hbegin
        -- nothing was being sent: the session has come to the end of `done`
        cases h.phase with
        | idle h₁ h₂ h₃ h₄ =>
            refine ⟨done, packet :: waiting, [], rfl, rfl, ?_, h.sendable, h.written, ?_,
              fun hnot ↦ by cases hnot⟩
            · rw [h.accepted]
              simp
            · refine .packing rfl rfl h₃ rfl (Nat.zero_le _) ?_ rfl (Nat.zero_le _)
              simpa using h₄
        | packing h₁ => exact absurd h₁ hsending
        | writing h₁ => exact absurd h₁ hsending
        | stuck h₁ => exact absurd h₁ hsending

theorem Inv.pack (h : Inv E s done current waiting) (hpack : s.pack E = some s') :
    Inv E s' done current waiting := by
  cases h.phase with
  | idle h₁ h₂ => simp [Session.pack, h₂] at hpack
  | writing h₁ h₂ => simp [Session.pack, h₂] at hpack
  | stuck h₁ h₂ => simp [Session.pack, h₂] at hpack
  | packing h₁ h₂ h₃ h₄ hi h₅ h₆ h₇ =>
      rename_i i
      simp only [Session.pack, h₂, h₄] at hpack
      cases hget : current[i]? with
      | none => simp [hget] at hpack
      | some packet =>
          have hmem : packet ∈ s.accepted := by
            rw [h.accepted]
            simp [List.mem_of_getElem? hget]
          obtain ⟨sendBuffer, hsend, hinside, hfront⟩ :=
            onSend_front (h.sendable packet hmem) s.mods h₇
          simp only [hget, hsend, if_true, Option.some.injEq] at hpack
          have hlt : i < current.length := (List.getElem?_eq_some_iff.mp hget).1
          have htake : current.take (i + 1) = current.take i ++ [packet] := by
            rw [List.take_add_one, hget]
            rfl
          subst hpack
          refine ⟨rfl, h.accumulated, h.accepted, h.sendable, h.written, ?_,
            fun hnot ↦ absurd (h₁.symm.trans hnot) (by simp)⟩
          refine .packing h₁ rfl h₃ rfl hlt ?_ ?_ hinside
          · rw [htake, ← List.append_assoc, sentAll_append, ← h₅]
            rfl
          · rw [hfront, h₆, htake, stream_concat, ← sentAll_append, ← h₅]

theorem Inv.write (h : Inv E s done current waiting) {result : SocketResult}
    (hwrite : s.write result = some s') : ∃ done current, Inv E s' done current waiting := by
  cases h.phase with
  | idle h₁ h₂ => simp [Session.write, h₂] at hwrite
  | writing h₁ h₂ => simp [Session.write, h₂] at hwrite
  | stuck h₁ h₂ => simp [Session.write, h₂] at hwrite
  | packing h₁ h₂ h₃ h₄ hi h₅ h₆ h₇ =>
      rename_i i
      simp only [Session.write, h₂, h₄] at hwrite
      split_ifs at hwrite with hlt
      obtain rfl : i = current.length := Nat.le_antisymm hi (Nat.le_of_not_lt hlt)
      rw [List.take_length] at h₅ h₆
      have hbusy : ∀ callers, s.sending = false → waiting ≠ [] → 0 < callers :=
        fun _ hnot ↦ absurd (h₁.symm.trans hnot) (by simp)
      cases result with
      | ok =>
          cases hwrite
          refine ⟨done ++ current, [], rfl, h.accumulated, ?_, h.sendable, ?_,
            .writing h₁ rfl rfl h₅, hbusy _⟩
          · rw [h.accepted, List.append_nil]
          · rw [stream_append, ← h.written, ← h₆]
      | passedOver =>
          cases hwrite
          exact ⟨done, current, rfl, h.accumulated, h.accepted, h.sendable, h.written,
            .stuck h₁ rfl h₃, hbusy _⟩
      | failed =>
          cases hwrite
          exact ⟨done, current, rfl, h.accumulated, h.accepted, h.sendable, h.written,
            .stuck h₁ rfl h₃, hbusy _⟩

theorem Inv.completed (h : Inv E s done current waiting) {result : SocketResult}
    (hcompleted : s.completed result = some s') : Inv E s' done current waiting := by
  unfold Session.completed at hcompleted
  split_ifs at hcompleted with hwriting
  cases h.phase with
  | idle h₁ h₂ h₃ => exact absurd (hwriting.symm.trans h₃) (by simp)
  | packing h₁ h₂ h₃ => exact absurd (hwriting.symm.trans h₃) (by simp)
  | stuck h₁ h₂ h₃ => exact absurd (hwriting.symm.trans h₃) (by simp)
  | writing h₁ h₂ h₃ h₄ =>
      have hbusy : ∀ callers, s.sending = false → waiting ≠ [] → 0 < callers :=
        fun _ hnot ↦ absurd (h₁.symm.trans hnot) (by simp)
      cases result with
      | ok =>
          cases hcompleted
          exact ⟨h.made, h.accumulated, h.accepted, h.sendable, h.written, .idle rfl h₂ rfl h₄,
            fun _ _ ↦ Nat.succ_pos _⟩
      | passedOver =>
          cases hcompleted
          exact ⟨h.made, h.accumulated, h.accepted, h.sendable, h.written, .stuck h₁ h₂ rfl,
            hbusy _⟩
      | failed =>
          cases hcompleted
          exact ⟨h.made, h.accumulated, h.accepted, h.sendable, h.written, .stuck h₁ h₂ rfl,
            hbusy _⟩

theorem Inv.step (h : Inv E s done current waiting) (ha : Sends E s a)
    (hstep : s.step E a = some s') : ∃ done current waiting, Inv E s' done current waiting := by
  cases a with
  | check =>
      cases hstep
      exact ⟨_, _, _, h.check⟩
  | add packet => exact ⟨_, _, _, h.add ha hstep⟩
  | begin => exact h.begin hstep
  | pack => exact ⟨_, _, _, h.pack hstep⟩
  | write result =>
      obtain ⟨done, current, hnext⟩ := h.write hstep
      exact ⟨done, current, _, hnext⟩
  | completed result => exact ⟨_, _, _, h.completed hstep⟩
  | dispose =>
      cases hstep
      exact ⟨_, _, _, h.made, h.accumulated, h.accepted, h.sendable, h.written,
        h.phase.congr rfl rfl rfl rfl rfl rfl, h.callers⟩

theorem inv_initial (E : Env P S) : Inv E (initial (some [])) [] [] [] :=
  ⟨rfl, rfl, rfl, fun _ h ↦ absurd h List.not_mem_nil, rfl, .idle rfl rfl rfl rfl,
    fun _ hne ↦ absurd rfl hne⟩

theorem exists_inv (h : Reaches (Session.step E) (Sends E) (initial (some [])) s) :
    ∃ done current waiting, Inv E s done current waiting := by
  refine @Reaches.invariant _ _ _ _ (fun s ↦ ∃ done current waiting, Inv E s done current waiting)
    _ _ h ⟨[], [], [], inv_initial E⟩ ?_
  rintro s a s' ⟨done, current, waiting, hinv⟩ ha hstep
  exact hinv.step ha hstep

/-- The socket gets the frames of the packets in the order in which `Send` took them, each once,
and all of them when no thread is sending or about to. -/
theorem written_in_order (h : Reaches (Session.step E) (Sends E) (initial (some [])) s) :
    s.written <+: E.stream .initial s.accepted ∧
      (s.sending = false → s.callers = 0 → s.written = E.stream .initial s.accepted) := by
  obtain ⟨done, current, waiting, hinv⟩ := exists_inv h
  constructor
  · rw [hinv.written, hinv.accepted, List.append_assoc, stream_append]
    exact List.prefix_append _ _
  · intro hsending hcallers
    have hwaiting : waiting = [] := by
      by_contra hne
      exact absurd (hinv.callers hsending hne) (by omega)
    have hcurrent : current = [] := by
      cases hinv.phase with
      | idle => rfl
      | packing h₁ => exact absurd (h₁.symm.trans hsending) (by simp)
      | writing h₁ => exact absurd (h₁.symm.trans hsending) (by simp)
      | stuck h₁ => exact absurd (h₁.symm.trans hsending) (by simp)
    rw [hinv.written, hinv.accepted, hwaiting, hcurrent, List.append_nil, List.append_nil]

/-- Two calls of `Send`, the second one while the first packet is being sent. -/
def twoSends : List (Action (List UInt8)) :=
  [.check, .add [5], .begin, .check, .add [6], .pack, .write .ok, .completed .ok, .begin, .pack,
    .write .ok, .completed .ok, .begin]

theorem sends_twoSends (s : Session (List UInt8)) :
    ∀ a ∈ twoSends, Sends numberedEnv s a := by
  intro a ha
  cases a with
  | add packet =>
      refine sendable_numbered ?_
      simp only [twoSends, List.mem_cons, Action.add.injEq, reduceCtorEq, false_or, or_false,
        List.not_mem_nil] at ha
      rcases ha with rfl | rfl <;> rfl
  | _ => trivial

set_option maxRecDepth 4000 in
theorem exists_twoSends : ∃ s, Reaches (Session.step numberedEnv) (Sends numberedEnv)
    (initial (some [])) s ∧ (!s.sending && s.callers == 0 && s.accepted == [[5], [6]] &&
      s.written == [10, 0, 0, 0, 1, 0, 1, 2, 5, 1, 10, 0, 0, 0, 1, 0, 1, 2, 6, 2]) = true :=
  exists_reaches twoSends sends_twoSends rfl

theorem written_in_order_two : ∃ s, Reaches (Session.step numberedEnv) (Sends numberedEnv)
    (initial (some [])) s ∧ s.accepted = [[5], [6]] ∧
      s.written = numberedEnv.stream .initial s.accepted := by
  obtain ⟨s, hreach, hcheck⟩ := exists_twoSends
  simp only [Bool.and_eq_true, Bool.not_eq_true', beq_iff_eq] at hcheck
  obtain ⟨⟨⟨hsending, hcallers⟩, haccepted⟩, -⟩ := hcheck
  exact ⟨s, hreach, haccepted, (written_in_order hreach).2 hsending hcallers⟩

/-! ## The end of sending -/

/-- A call of `BeginSend` has ended without a send, or a send without `sending` being cleared. -/
def Stuck (s : Session P) : Prop := s.sending = true ∧ s.packing = none ∧ s.writing = false

theorem Stuck.step (h : Stuck s) (hstep : s.step E a = some s') :
    Stuck s' ∧ s'.written = s.written := by
  obtain ⟨hsending, hpacking, hwriting⟩ := h
  cases a with
  | check =>
      cases hstep
      rw [Session.check]
      split_ifs <;> exact ⟨⟨hsending, hpacking, hwriting⟩, rfl⟩
  | add packet =>
      rw [Session.step, Session.add] at hstep
      by_cases hchecked : s.checked = 0
      · rw [if_pos hchecked] at hstep
        cases hstep
      rw [if_neg hchecked] at hstep
      cases hlist : s.packetsAccumulated <;> simp only [hlist, Option.some.injEq] at hstep <;>
        subst hstep <;> exact ⟨⟨hsending, hpacking, hwriting⟩, rfl⟩
  | begin =>
      rw [Session.step, Session.begin] at hstep
      split_ifs at hstep
      cases hstep
      exact ⟨⟨hsending, hpacking, hwriting⟩, rfl⟩
  | pack => simp [Session.step, Session.pack, hpacking] at hstep
  | write result => simp [Session.step, Session.write, hpacking] at hstep
  | completed result => simp [Session.step, Session.completed, hwriting] at hstep
  | dispose =>
      cases hstep
      exact ⟨⟨hsending, hpacking, hwriting⟩, rfl⟩

/-- The step ends a send without success: `OnSend` fails or throws, or the socket does. -/
def Fails (E : Env P S) (s : Session P) : Action P → Prop
  | .pack => ∃ i packets packet, s.packing = some i ∧ s.packetsSending = some packets ∧
      packets[i]? = some packet ∧
        ∀ mods sendBuffer, onSend E s.mods packet s.sendBuffer ≠ .ok (.success, mods, sendBuffer)
  | .write result => result ≠ .ok
  | .completed result => result ≠ .ok
  | _ => False

/-- While a thread is in the loop or a send is under way, `sending` is set. -/
structure Busy (s : Session P) : Prop where
  packing : s.packing ≠ none → s.sending = true ∧ s.writing = false
  writing : s.writing = true → s.sending = true ∧ s.packing = none

theorem Busy.step (h : Busy s) (hstep : s.step E a = some s') : Busy s' := by
  cases a with
  | check =>
      cases hstep
      rw [Session.check]
      split_ifs <;> exact ⟨h.packing, h.writing⟩
  | add packet =>
      rw [Session.step, Session.add] at hstep
      by_cases hchecked : s.checked = 0
      · rw [if_pos hchecked] at hstep
        cases hstep
      rw [if_neg hchecked] at hstep
      cases hlist : s.packetsAccumulated <;> simp only [hlist, Option.some.injEq] at hstep <;>
        subst hstep <;> exact ⟨h.packing, h.writing⟩
  | begin =>
      rw [Session.step, Session.begin] at hstep
      split_ifs at hstep with hcallers hsending
      · cases hstep
        exact ⟨h.packing, h.writing⟩
      · have hpacking : s.packing = none := by
          by_contra hne
          exact hsending (h.packing hne).1
        have hwriting : s.writing = false := by
          by_contra hne
          exact hsending (h.writing (by simpa using hne)).1
        split at hstep <;> cases hstep
        · exact ⟨h.packing, h.writing⟩
        · exact ⟨h.packing, h.writing⟩
        · exact ⟨fun _ ↦ ⟨rfl, hwriting⟩, fun _ ↦ ⟨rfl, hpacking⟩⟩
        · exact ⟨fun _ ↦ ⟨rfl, hwriting⟩, fun hnot ↦ absurd (hwriting.symm.trans hnot) (by simp)⟩
  | pack =>
      rw [Session.step, Session.pack] at hstep
      split at hstep
      case h_2 => cases hstep
      rename_i i packets hpacking hsending
      obtain ⟨hbusy, hwriting⟩ := h.packing (by simp [hpacking])
      have hidle : s.writing = true → False := fun hnot ↦ by simp [hwriting] at hnot
      split at hstep
      · cases hstep
      · split at hstep <;> cases hstep
        · exact ⟨fun hnot ↦ absurd rfl hnot, fun hnot ↦ (hidle hnot).elim⟩
        · exact ⟨fun _ ↦ ⟨hbusy, hwriting⟩, fun hnot ↦ (hidle hnot).elim⟩
  | write result =>
      rw [Session.step] at hstep
      unfold Session.write at hstep
      split at hstep
      case h_2 => cases hstep
      rename_i i packets hpacking hsending
      obtain ⟨hbusy, hwriting⟩ := h.packing (by simp [hpacking])
      have hidle : s.writing = true → False := fun hnot ↦ by simp [hwriting] at hnot
      split_ifs at hstep
      cases result <;> cases hstep
      · exact ⟨fun hnot ↦ absurd rfl hnot, fun _ ↦ ⟨hbusy, rfl⟩⟩
      · exact ⟨fun hnot ↦ absurd rfl hnot, fun hnot ↦ (hidle hnot).elim⟩
      · exact ⟨fun hnot ↦ absurd rfl hnot, fun hnot ↦ (hidle hnot).elim⟩
  | completed result =>
      rw [Session.step] at hstep
      unfold Session.completed at hstep
      split_ifs at hstep with hwriting
      have hpacking := (h.writing hwriting).2
      have hnone : s.packing ≠ none → False := fun hne ↦ hne hpacking
      cases result <;> cases hstep <;>
        exact ⟨fun hne ↦ (hnone hne).elim, fun hnot ↦ by cases hnot⟩
  | dispose =>
      cases hstep
      exact ⟨h.packing, h.writing⟩

theorem Busy.stuck (h : Busy s) (ha : Fails E s a) (hstep : s.step E a = some s') : Stuck s' := by
  cases a with
  | pack =>
      obtain ⟨i, packets, packet, hpacking, hsending, hget, hfails⟩ := ha
      obtain ⟨hbusy, hwriting⟩ := h.packing (by simp [hpacking])
      simp only [Session.step, Session.pack, hpacking, hsending, hget] at hstep
      cases hsend : onSend E s.mods packet s.sendBuffer with
      | error fault =>
          simp only [hsend, Option.some.injEq] at hstep
          subst hstep
          exact ⟨hbusy, rfl, hwriting⟩
      | ok sent =>
          obtain ⟨code, mods, sendBuffer⟩ := sent
          have hcode : code ≠ .success := by
            rintro rfl
            exact hfails mods sendBuffer hsend
          simp only [hsend, if_neg hcode, Option.some.injEq] at hstep
          subst hstep
          exact ⟨hbusy, rfl, hwriting⟩
  | write result =>
      rw [Session.step] at hstep
      unfold Session.write at hstep
      split at hstep
      case h_2 => cases hstep
      rename_i i packets hpacking hsending
      obtain ⟨hbusy, hwriting⟩ := h.packing (by simp [hpacking])
      split_ifs at hstep
      cases result with
      | ok => exact absurd rfl ha
      | passedOver | failed =>
          cases hstep
          exact ⟨hbusy, rfl, hwriting⟩
  | completed result =>
      rw [Session.step] at hstep
      unfold Session.completed at hstep
      split_ifs at hstep with hwriting
      obtain ⟨hbusy, hpacking⟩ := h.writing hwriting
      cases result with
      | ok => exact absurd rfl ha
      | passedOver | failed =>
          cases hstep
          exact ⟨hbusy, hpacking, rfl⟩
  | check => exact ha.elim
  | add packet => exact ha.elim
  | begin => exact ha.elim
  | dispose => exact ha.elim

/-- After one failure nothing more is sent. -/
theorem nothing_after_failure {lists : Option (List P)}
    (h : Reaches (Session.step E) (fun _ _ ↦ True) (initial lists) s) (ha : Fails E s a)
    (hstep : s.step E a = some s') {s'' : Session P}
    (hlater : Reaches (Session.step E) (fun _ _ ↦ True) s' s'') :
    s''.sending = true ∧ s''.written = s'.written := by
  have hbusy : Busy s := by
    refine h.invariant ⟨fun hne ↦ absurd rfl hne, fun hnot ↦ by cases hnot⟩ ?_
    exact fun _ _ _ hbusy _ hstep ↦ hbusy.step hstep
  have hlast : Stuck s'' ∧ s''.written = s'.written := by
    refine @Reaches.invariant _ _ _ _ (fun t ↦ Stuck t ∧ t.written = s'.written) _ _ hlater
      ⟨hbusy.stuck ha hstep, rfl⟩ ?_
    rintro t b t' ⟨hstuck, hwritten⟩ - hnext
    obtain ⟨hstuck', hsame⟩ := hstuck.step hnext
    exact ⟨hstuck', hsame.trans hwritten⟩
  exact ⟨hlast.1.1, hlast.2⟩

set_option maxRecDepth 4000 in
/-- The socket refuses the packet of one call; another call is still taken. -/
theorem nothing_after_failure_write : ∃ s s' s'' : Session (List UInt8),
    s.step numberedEnv (.write .failed) = some s' ∧
      Reaches (Session.step numberedEnv) (fun _ _ ↦ True) s' s'' ∧ s''.accepted = [[5], [6]] ∧
      s''.sending = true ∧ s''.written = s'.written := by
  obtain ⟨s, hreach, hcheck⟩ := @exists_reaches _ _ (Session.step numberedEnv) (fun _ _ ↦ True)
    (initial (some [])) [.check, .check, .add [5], .begin, .pack]
    (fun s ↦ s.packing == some 1 && s.packetsSending == some [[5]] && s.accepted == [[5]] &&
      s.packetsAccumulated == some [] && s.checked == 1) (fun _ _ _ ↦ trivial) rfl
  simp only [Bool.and_eq_true, beq_iff_eq] at hcheck
  obtain ⟨⟨⟨⟨hpacking, hsending⟩, haccepted⟩, hwaiting⟩, hchecked⟩ := hcheck
  have hwrite : s.step numberedEnv (.write .failed) =
      some { s with packing := none, disposed := true } := by
    simp [Session.step, Session.write, hpacking, hsending]
  have hlater : Reaches (Session.step numberedEnv) (fun _ _ ↦ True)
      { s with packing := none, disposed := true }
      { s with
        packing := none
        disposed := true
        checked := 0
        packetsAccumulated := some [[6]]
        accepted := [[5], [6]]
        callers := if s.sending then s.callers else s.callers + 1 } := by
    refine .head trivial (a := .add [6]) ?_ .refl
    simp [Session.step, Session.add, hchecked, hwaiting, haccepted]
  exact ⟨s, _, _, hwrite, hlater, rfl,
    nothing_after_failure hreach (a := .write .failed) nofun hwrite hlater⟩

/-- A session without lists, in which no send has begun. -/
structure Listless (s : Session P) : Prop where
  accumulated : s.packetsAccumulated = none
  packing : s.packing = none
  writing : s.writing = false

theorem Listless.step (h : Listless s) (hstep : s.step E a = some s') :
    Listless s' ∧ s'.accepted = s.accepted ∧ s'.written = s.written := by
  cases a with
  | check =>
      cases hstep
      rw [Session.check]
      split_ifs <;> exact ⟨⟨h.accumulated, h.packing, h.writing⟩, rfl, rfl⟩
  | add packet =>
      rw [Session.step, Session.add] at hstep
      by_cases hchecked : s.checked = 0
      · rw [if_pos hchecked] at hstep
        cases hstep
      rw [if_neg hchecked] at hstep
      simp only [h.accumulated, Option.some.injEq] at hstep
      subst hstep
      exact ⟨⟨rfl, h.packing, h.writing⟩, rfl, rfl⟩
  | begin =>
      rw [Session.step, Session.begin] at hstep
      split_ifs at hstep
      · cases hstep
        exact ⟨⟨h.accumulated, h.packing, h.writing⟩, rfl, rfl⟩
      · simp only [h.accumulated, Option.some.injEq] at hstep
        subst hstep
        exact ⟨⟨rfl, h.packing, h.writing⟩, rfl, rfl⟩
  | pack => simp [Session.step, Session.pack, h.packing] at hstep
  | write result => simp [Session.step, Session.write, h.packing] at hstep
  | completed result => simp [Session.step, Session.completed, h.writing] at hstep
  | dispose =>
      cases hstep
      exact ⟨⟨h.accumulated, h.packing, h.writing⟩, rfl, rfl⟩

end Session

/-! ## From the client to the server -/

section

variable {P Q S : Type} {E : Env P S} {F : Net.Env Q} {m : Modifiers} {r : Net.Modifiers}
  {packet : P} {q : Q} {packets : List P} {qs : List Q}

/-- The server creates an object for the topic that reads the client's packet as `q`. -/
def Reads (E : Env P S) (F : Net.Env Q) (packet : P) (q : Q) : Prop :=
  ∃ mp, F.factory (E.ops.topic packet) = some mp ∧ F.ops.flags mp = E.ops.flags packet ∧
    F.ops.unpack mp (E.body packet) = ⟨true, q, (E.body packet).length⟩

/-- The frames of the client's packets, with what the server reads from them. -/
def framesOf (E : Env P S) : Modifiers → List P → List Q → List (Frame Q)
  | m, packet :: packets, q :: qs =>
      ⟨q, E.wire m packet, 8 + (E.body packet).length⟩ :: framesOf E (E.sent m packet) packets qs
  | _, _, _ => []

theorem framesOf_spec (h : List.Forall₂ (Reads E F) packets qs) :
    wires (framesOf E m packets qs) = E.stream m packets ∧
      (framesOf E m packets qs).map Frame.packet = qs := by
  induction h generalizing m with
  | nil => exact ⟨rfl, rfl⟩
  | cons _ _ ih =>
      obtain ⟨hwires, hpackets⟩ := @ih (E.sent m _)
      constructor
      · rw [framesOf, Env.stream, ← hwires]
        rfl
      · rw [framesOf, List.map_cons, hpackets]

/-- The server accepts the frame of a packet, and the two sides stand together again. -/
theorem accepts_wire (h : Paired E.runtime E.settings F.botan F.cfg) (hreads : Reads E F packet q)
    (hsends : SendsTo m r)
    (hagree : Agrees E.runtime F.botan (E.on packet) m.cipher.sender m.sequence.sendSeq
      (E.body packet))
    (hcount : F.cfg.keyChangeInterval ∣ 2 ^ 32 ∨ r.cipher.receiver.count < 2 ^ 31)
    (hadmitted : (E.wire m packet).length ≤ F.cfg.maxPacketLength) :
    ∃ r' mp head tail, SendsTo (E.sent m packet) r' ∧
      r'.cipher.receiver.count ≤ r.cipher.receiver.count + 1 ∧
      Accepts F r ⟨q, E.wire m packet, 8 + (E.body packet).length⟩ r' mp head (E.body packet)
        tail := by
  obtain ⟨mp, hcreated, hflags, hunpacked⟩ := hreads
  obtain ⟨r', hunwrap, htogether, hle⟩ := unwrapBody_wire h hsends hagree hcount
  have hlength : 8 + (Client.wire E.runtime (E.on packet) m (E.body packet)).length < 2 ^ 32 := by
    rw [length_wire h.runtime]
    exact hagree.length
  set text := Client.wire E.runtime (E.on packet) m (E.body packet) with htext
  set head := header (8 + text.length) (E.ops.topic packet) with hhead
  have hlength_field : fieldValue head 0 = 8 + text.length := by
    have hfield := fieldValue_fieldBytes [] (8 + text.length)
      (fieldBytes (E.ops.topic packet).toNat) (Eq.refl 0)
    rwa [List.nil_append, Nat.mod_eq_of_lt hlength] at hfield
  have htopic_field : UInt32.ofNat (fieldValue head 4) = E.ops.topic packet := by
    have hfield := fieldValue_fieldBytes (fieldBytes (8 + text.length))
      (E.ops.topic packet).toNat [] (Eq.refl 4)
    rw [List.append_nil, Nat.mod_eq_of_lt (E.ops.topic packet).toNat_lt] at hfield
    rw [hhead, header, hfield, UInt32.ofNat_toNat]
  have hwire : E.wire m packet = head ++ text := rfl
  have hsize : (head ++ text).length = 8 + text.length := by simp [hhead]
  refine ⟨r', mp, head, text, htogether, hle, hwire, rfl, ?_, hadmitted, ?_, rfl, hunpacked, ?_⟩
  · rw [hwire, hsize, hlength_field]
  · rw [htopic_field]
    exact hcreated
  · intro pre post
    obtain ⟨junk, hjunk, hrecv⟩ := recvModified_of_unwrapBody h.botan hunwrap pre
      (show head.length = 8 from rfl) post
    refine ⟨junk, hjunk, ?_⟩
    rw [hflags, hwire, hsize, ← List.append_assoc]
    exact hrecv

theorem chain_framesOf (h : Paired E.runtime E.settings F.botan F.cfg)
    (hreads : List.Forall₂ (Reads E F) packets qs) (hsends : SendsTo m r)
    (hagrees : AgreesAlong E F.botan m packets)
    (hcount : F.cfg.keyChangeInterval ∣ 2 ^ 32 ∨
      r.cipher.receiver.count + packets.length ≤ 2 ^ 31)
    (hadmitted : ∀ f ∈ framesOf E m packets qs, f.wire.length ≤ F.cfg.maxPacketLength) :
    ∃ r', Chain F r (framesOf E m packets qs) r' := by
  induction hreads generalizing m r with
  | nil => exact ⟨r, .nil r⟩
  | @cons packet q packets qs hread hreads ih =>
      obtain ⟨-, hagree, hrest⟩ := hagrees
      rw [List.length_cons] at hcount
      obtain ⟨r₁, mp, head, tail, htogether, hle, haccepts⟩ := accepts_wire h hread hsends hagree
        (hcount.imp_right fun hlt ↦ by omega) (hadmitted _ List.mem_cons_self)
      obtain ⟨r', hchain⟩ := ih htogether hrest (hcount.imp_right fun hlt ↦ by omega)
        fun f hf ↦ hadmitted f (List.mem_cons_of_mem _ hf)
      exact ⟨r', .cons haccepts hchain⟩

/-- A frame is never empty. -/
theorem incomplete_nil {fs : List (Frame Q)} {r r' : Net.Modifiers} (h : Chain F r fs r') :
    Incomplete (fs.map Frame.wire) [] := by
  cases h with
  | nil => rfl
  | @cons _ _ _ f _ _ _ _ _ haccepts _ =>
      have hlength := haccepts.length_wire
      simp only [headerLength] at hlength
      change 0 < f.wire.length
      omega

/-- What the server can do with the packets of a session. -/
structure Served (E : Env P S) (F : Net.Env Q) (packets : List P) (qs : List Q) : Prop where
  paired : Paired E.runtime E.settings F.botan F.cfg
  reads : List.Forall₂ (Reads E F) packets qs
  agrees : AgreesAlong E F.botan .initial packets
  count : F.cfg.keyChangeInterval ∣ 2 ^ 32 ∨ packets.length ≤ 2 ^ 31
  admitted : ∀ f ∈ framesOf E .initial packets qs, f.wire.length ≤ F.cfg.maxPacketLength

/-- What a session of the client has written, in whatever pieces it reaches the server: no call
of `on_recv` fails, the server publishes the packets that `Send` has taken in their order, and all
of them when all bytes of a session that has come to rest have arrived. -/
theorem server_publishes {s : Session P}
    (h : Reaches (Session.step E) (Session.Sends E) (Session.initial (some [])) s)
    (hserved : Served E F s.accepted qs) {cs : List (List UInt8)} (hne : ∀ c ∈ cs, c ≠ [])
    (harrived : cs.flatten <+: s.written)
    (hseparated : Separated (framesOf E .initial s.accepted qs) 0 cs) :
    ∃ fuel mods rest published, (∀ n, fuel ≤ n →
        Net.onRecvAll F n ⟨⟨[], 0⟩, .initial⟩ cs =
          some (cs.map fun _ ↦ .returned .ok, ⟨⟨rest, 0⟩, mods⟩, published)) ∧
      published <+: qs ∧
      (s.sending = false → s.callers = 0 → cs.flatten = s.written → published = qs) := by
  obtain ⟨hwires, hpackets⟩ := framesOf_spec (m := Modifiers.initial) hserved.reads
  obtain ⟨hbeginning, hall⟩ := Session.written_in_order h
  obtain ⟨r', hchain⟩ := chain_framesOf hserved.paired hserved.reads (r := .initial)
    ⟨.initial, rfl⟩ hserved.agrees
    (hserved.count.imp_right fun hle ↦ (Nat.zero_add _).le.trans hle) hserved.admitted
  set fs := framesOf E .initial s.accepted qs with hfs
  have hpre : [] ++ cs.flatten <+: wires fs := by
    rw [hwires]
    exact harrived.trans hbeginning
  obtain ⟨mods, rest, fuel, hrun, -, -⟩ :=
    hchain.onRecvAll hne (incomplete_nil hchain) hpre hseparated
  refine ⟨fuel, mods, rest, _, hrun, ?_, ?_⟩
  · rw [List.map_take, hpackets]
    exact List.take_prefix _ _
  · intro hsending hcallers hflatten
    have hlength : ([] ++ cs.flatten).length = (wires fs).length + 0 := by
      rw [List.nil_append, hflatten, hall hsending hcallers, hwires, Nat.add_zero]
    have hcomplete := completeFrames_append fs [] 0
    rw [List.append_nil, ← hlength] at hcomplete
    rw [hcomplete, show completeFrames ([] : List (Frame Q)) 0 = 0 from rfl, Nat.add_zero,
      List.take_length, hpackets]

end

theorem served_numbered : Served numberedEnv sequencedEnv [[5], [6]] [level 5, level 6] where
  paired := paired_ofBotan sampleBotan_lawful
  reads := .cons ⟨level 0, rfl, rfl, rfl⟩ (.cons ⟨level 0, rfl, rfl, rfl⟩ .nil)
  agrees := by
    have hagrees : ∀ c seq (body : List UInt8), body.length = 1 →
        Agrees numberedEnv.runtime sequencedEnv.botan ⟨true, false, false⟩ c seq body := by
      intro c seq body hlen
      refine ⟨?_, fun h ↦ (Bool.false_ne_true h).elim, fun h ↦ (Bool.false_ne_true h).elim⟩
      rw [hlen]
      decide
    exact ⟨rfl, hagrees _ _ _ rfl, rfl, hagrees _ _ _ rfl, trivial⟩
  count := .inl (by decide)
  admitted := by decide

theorem server_publishes_two : ∃ s fuel mods rest published,
    Reaches (Session.step numberedEnv) (Session.Sends numberedEnv) (Session.initial (some [])) s ∧
      (∀ n, fuel ≤ n → Net.onRecvAll sequencedEnv n ⟨⟨[], 0⟩, .initial⟩
          [[10, 0, 0, 0, 1, 0, 1, 2, 5, 1, 10, 0], [0, 0, 1, 0, 1, 2, 6, 2]] =
        some ([.returned .ok, .returned .ok], ⟨⟨rest, 0⟩, mods⟩, published)) ∧
      published = [level 5, level 6] := by
  obtain ⟨s, hreach, hcheck⟩ := Session.exists_twoSends
  simp only [Bool.and_eq_true, Bool.not_eq_true', beq_iff_eq] at hcheck
  obtain ⟨⟨⟨hsending, hcallers⟩, haccepted⟩, hwritten⟩ := hcheck
  have harrived : ([[10, 0, 0, 0, 1, 0, 1, 2, 5, 1, 10, 0], [0, 0, 1, 0, 1, 2, 6, 2]] :
      List (List UInt8)).flatten <+: s.written := by
    rw [hwritten]
    exact List.prefix_rfl
  obtain ⟨fuel, mods, rest, published, hrun, -, hall⟩ := server_publishes hreach
    (haccepted ▸ served_numbered) (by decide) harrived (by
      rw [haccepted]
      exact ⟨by decide, by decide, trivial⟩)
  exact ⟨s, fuel, mods, rest, published, hreach, hrun,
    hall hsending hcallers hwritten.symm⟩

end WiseKernel.Client
