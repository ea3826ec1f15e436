import Mathlib.Logic.Function.Basic
import Mathlib.Logic.Relation
import WiseKernel.Net.SegmentBuffer

/-!
# The session on a socket

`tcp_session` under any interleaving.  A thread calls `send` or `disconnect`,
or runs a completion handler; it stands between two blocks that hold a mutex,
and a step takes it through the next block, or starts an asynchronous
operation.  The operations under way belong to asio and complete in any order
and with any result.
-/

namespace WiseKernel.Net

open WiseKernel.Lib

namespace TcpSession

/-- `segment_buffer<32 * 1024>`. -/
def segmentLength : ℕ := 32 * 1024

/-- What `on_recv_completed` has after its call of `protocol_->on_recv`. -/
inductive Receipt
  /-- bytes that the protocol took -/
  | handled
  /-- bytes that the protocol refused -/
  | refused
  /-- an error of the socket -/
  | failed
  deriving DecidableEq, Repr

/-- Where a thread stands: before which block or call. -/
inductive Place
  | idle
  /-- `send`, before the block that appends -/
  | append (data : List UInt8)
  /-- `request_send`, before the block that checks -/
  | checkSend
  /-- `request_send`, before the block that takes the segments -/
  | transfer
  /-- `request_send`, before `async_write` -/
  | startWrite
  /-- `on_send_completed`, before the block that releases the segments -/
  | release
  /-- `on_send_completed`, before the block that clears `sending_` -/
  | clearSending
  /-- `request_recv`, before the block that checks; `begin` ignores its result -/
  | checkRecv (begun : Bool)
  /-- `request_recv`, before `async_read_some` -/
  | startRead
  /-- `on_recv_completed`, before the block that clears `recving_` -/
  | clearRecving (receipt : Receipt)
  /-- `close`, before its block; `error` reports behind it -/
  | close (report : Bool)
  /-- `error`, before `protocol_->on_error` -/
  | report
  deriving DecidableEq, Repr

end TcpSession

open TcpSession in
/-- `tcp_session` with its threads `T`, the operations under way, and what
happened so far: the data appended, the buffers given to `async_write` and the
number of calls of `protocol_->on_error`. -/
structure TcpSession (T : Type) where
  isOpen : Bool
  recving : Bool
  sending : Bool
  destroyed : Bool
  sendBuffer : SegmentBuffer
  sendingSegs : List (List UInt8)
  place : T → Place
  writes : List (List UInt8)
  reads : ℕ
  appended : List UInt8
  written : List (List UInt8)
  errors : ℕ

namespace TcpSession

/-- A step of the system. -/
inductive Action (T : Type)
  | send (t : T) (data : List UInt8)
  | disconnect (t : T)
  /-- the `i`-th write under way completes and its handler starts -/
  | writeCompleted (t : T) (i : ℕ)
  | readCompleted (t : T) (receipt : Receipt)
  /-- the thread goes on -/
  | proceed (t : T)
  deriving DecidableEq, Repr

variable {T : Type} [DecidableEq T]

/-- A new session, in whose `begin` the thread `t` has come to
`request_recv`. -/
def initial (t : T) : TcpSession T where
  isOpen := true
  recving := false
  sending := false
  destroyed := false
  sendBuffer := .empty
  sendingSegs := []
  place := Function.update (fun _ ↦ .idle) t (.checkRecv true)
  writes := []
  reads := 0
  appended := []
  written := []
  errors := 0

def goto (s : TcpSession T) (t : T) (p : Place) : TcpSession T :=
  { s with place := Function.update s.place t p }

/-- The block of `close`.  It waits for both directions before it marks the
session as destroyed. -/
def closeBlock (s : TcpSession T) : TcpSession T :=
  if s.destroyed then s
  else
    let s := { s with isOpen := false }
    if s.sending || s.recving then s else { s with destroyed := true }

/-- The next block or call of a thread. -/
def proceed (s : TcpSession T) (t : T) : Option (TcpSession T) :=
  match s.place t with
  | .idle => none
  | .append data =>
      (s.sendBuffer.append segmentLength data).map fun b ↦
        { s with sendBuffer := b, appended := s.appended ++ data }.goto t .checkSend
  | .checkSend =>
      -- already sending, closed or nothing to send: `request_send` returns
      if s.sending || !s.isOpen || s.sendBuffer.size = 0 then some (s.goto t .idle)
      else some ({ s with sending := true }.goto t .transfer)
  | .transfer =>
      let (segs, b) := s.sendBuffer.transfer segmentLength
      some ({ s with sendingSegs := segs, sendBuffer := b }.goto t .startWrite)
  | .startWrite =>
      let bufs := s.sendingSegs.flatten
      some ({ s with writes := s.writes ++ [bufs], written := s.written ++ [bufs] }.goto t .idle)
  | .release => some ({ s with sendingSegs := [] }.goto t .clearSending)
  | .clearSending => some ({ s with sending := false }.goto t .checkSend)
  | .checkRecv begun =>
      if s.recving || !s.isOpen then some (s.goto t (if begun then .idle else .close true))
      else some ({ s with recving := true }.goto t .startRead)
  | .startRead => some ({ s with reads := s.reads + 1 }.goto t .idle)
  | .clearRecving receipt =>
      some ({ s with recving := false }.goto t
        (if receipt = Receipt.handled then .checkRecv false else .close true))
  | .close report => some (s.closeBlock.goto t (if report then .report else .idle))
  | .report => some ({ s with errors := s.errors + 1 }.goto t .idle)

/-- One step; `none` when the thread is busy with something else, or no such
operation is under way. -/
def step (s : TcpSession T) : Action T → Option (TcpSession T)
  | .send t data =>
      if s.place t = .idle then some (if s.isOpen then s.goto t (.append data) else s) else none
  | .disconnect t => if s.place t = .idle then some (s.goto t (.close false)) else none
  | .writeCompleted t i =>
      if s.place t = .idle ∧ i < s.writes.length then
        some ({ s with writes := s.writes.eraseIdx i }.goto t .release)
      else none
  | .readCompleted t receipt =>
      if s.place t = .idle ∧ 0 < s.reads then
        some ({ s with reads := s.reads - 1 }.goto t (.clearRecving receipt))
      else none
  | .proceed t => s.proceed t

/-- The states after steps that all meet a condition. -/
def ReachedWhile (ok : TcpSession T → Action T → Prop) : TcpSession T → TcpSession T → Prop :=
  Relation.ReflTransGen fun s s' ↦ ∃ act, ok s act ∧ s.step act = some s'

/-- The states of a session under any interleaving. -/
def Reachable (s : TcpSession T) : Prop :=
  ∃ t, ReachedWhile (fun _ _ ↦ True) (initial t) s

section

variable {s : TcpSession T} {t t' : T} {p : Place}

@[simp] theorem goto_place_self : (s.goto t p).place t = p := by
  simp [goto]

theorem goto_place_of_ne (h : t' ≠ t) : (s.goto t p).place t' = s.place t' := by
  simp [goto, h]

omit [DecidableEq T] in
theorem closeBlock_eq : ∃ isOpen destroyed,
    s.closeBlock = { s with isOpen := isOpen, destroyed := destroyed } := by
  unfold closeBlock
  dsimp only
  split_ifs
  · exact ⟨s.isOpen, s.destroyed, rfl⟩
  · exact ⟨false, s.destroyed, rfl⟩
  · exact ⟨false, true, rfl⟩

omit [DecidableEq T] in
@[simp] theorem closeBlock_place : s.closeBlock.place = s.place := by
  obtain ⟨_, _, h⟩ := closeBlock_eq (s := s)
  rw [h]

end

/-! ## One write at a time -/

/-- Between the check of `request_send` and the end of the completion that
belongs to it. -/
def Place.owns : Place → Bool
  | .transfer | .startWrite | .release | .clearSending => true
  | _ => false

/-- Who has the turn to send: nobody, a thread, or a write under way. -/
inductive Turn (T : Type)
  | free
  | thread (t : T)
  | flight
  deriving DecidableEq

/-- Only the thread that moves can have the turn before and after. -/
theorem places_goto {s : TcpSession T} {t : T} {p : Place} {turn turn' : Turn T}
    {q : Place → Bool} (h : ∀ u, q (s.place u) = true ↔ turn = .thread u)
    (hold : ∀ u ≠ t, turn ≠ .thread u) (hnew : ∀ u ≠ t, turn' ≠ .thread u)
    (hp : q p = true ↔ turn' = .thread t) (u : T) :
    q ((s.goto t p).place u) = true ↔ turn' = .thread u := by
  by_cases hu : u = t
  · subst hu
    rw [goto_place_self, hp]
  · rw [goto_place_of_ne hu, h]
    exact iff_of_false (hold u hu) (hnew u hu)

/-- A thread that has no part in the turn moves. -/
theorem places_move {s : TcpSession T} {t : T} {p : Place} {turn : Turn T}
    {q : Place → Bool} (h : ∀ u, q (s.place u) = true ↔ turn = .thread u)
    (hold : q (s.place t) = false) (hnew : q p = false) (u : T) :
    q ((s.goto t p).place u) = true ↔ turn = .thread u := by
  by_cases hu : u = t
  · subst hu
    rw [goto_place_self, hnew, ← h, hold]
  · rw [goto_place_of_ne hu, h]

/-- The data that is out of the buffer and not yet in a write. -/
def inHand (s : TcpSession T) : Turn T → List UInt8
  | .thread t => if s.place t = .startWrite then s.sendingSegs.flatten else []
  | _ => []

/-- Who owns `sending_`, where every byte is, and who is going to look at the
buffer. -/
structure Sends (s : TcpSession T) (turn : Turn T) : Prop where
  flag : s.sending = true ↔ turn ≠ .free
  places : ∀ t, (s.place t).owns = true ↔ turn = .thread t
  writes : s.writes.length = if turn = .flight then 1 else 0
  valid : s.sendBuffer.Valid segmentLength
  account : s.written.flatten ++ s.inHand turn ++ s.sendBuffer.content = s.appended
  waking : s.isOpen = true → s.sendBuffer.content ≠ [] →
    s.sending = true ∨ ∃ t, s.place t = .checkSend

section

variable {s s' : TcpSession T} {t : T} {p : Place} {turn : Turn T}

theorem sends_initial (t : T) : Sends (initial t) .free where
  flag := by simp [initial]
  places u := by
    by_cases h : u = t <;> simp [initial, Function.update, h, Place.owns]
  writes := rfl
  valid := .inl rfl
  account := rfl
  waking _ h := absurd rfl h

theorem Sends.size_eq_zero (h : Sends s turn) :
    s.sendBuffer.size = 0 ↔ s.sendBuffer.content = [] := by
  rw [h.valid.size_eq, List.length_eq_zero_iff]

/-- The receiving side does not touch any of this, and may only close. -/
theorem Sends.frame (h : Sends s turn) (hopen : s'.isOpen = true → s.isOpen = true)
    (hsending : s'.sending = s.sending) (hplace : s'.place = s.place)
    (hbuffer : s'.sendBuffer = s.sendBuffer) (hsegs : s'.sendingSegs = s.sendingSegs)
    (hwrites : s'.writes = s.writes) (happended : s'.appended = s.appended)
    (hwritten : s'.written = s.written) : Sends s' turn where
  flag := by rw [hsending, h.flag]
  places u := by rw [hplace, h.places]
  writes := by rw [hwrites, h.writes]
  valid := by rw [hbuffer]; exact h.valid
  account := by
    have hhand : s'.inHand turn = s.inHand turn := by
      cases turn <;> simp [inHand, hplace, hsegs]
    rw [hhand, hwritten, hbuffer, happended, h.account]
  waking ho := by
    rw [hbuffer, hsending, hplace]
    exact h.waking (hopen ho)

/-- A thread without the turn moves on, and does not leave data behind that it
should have looked at. -/
theorem Sends.move (h : Sends s turn) (hold : (s.place t).owns = false) (hnew : p.owns = false)
    (hwake : s.place t = .checkSend → s.isOpen = true → s.sendBuffer.content ≠ [] →
      s.sending = true) : Sends (s.goto t p) turn where
  flag := h.flag
  places := places_move h.places hold hnew
  writes := h.writes
  valid := h.valid
  account := by
    have hhand : (s.goto t p).inHand turn = s.inHand turn := by
      cases turn with
      | free => rfl
      | flight => rfl
      | thread u =>
          have hu : u ≠ t := by
            rintro rfl
            rw [(h.places u).mpr rfl] at hold
            exact absurd hold (by decide)
          simp only [inHand, goto_place_of_ne hu]
          rfl
    rw [hhand]
    exact h.account
  waking ho hne := by
    rcases h.waking ho hne with hsending | ⟨u, hu⟩
    · exact .inl hsending
    · by_cases hut : u = t
      · subst hut
        exact .inl (hwake hu ho hne)
      · exact .inr ⟨u, by rw [goto_place_of_ne hut, hu]⟩

/-- The thread with the turn goes on to another of its places. -/
theorem Sends.advance (h : Sends s (.thread t)) (hnew : p.owns = true)
    (hsending : s'.sending = s.sending) (hplace : s'.place = s.place)
    (hvalid : s'.sendBuffer.Valid segmentLength) (hwrites : s'.writes = s.writes)
    (haccount : s'.written.flatten ++ (s'.goto t p).inHand (.thread t) ++ s'.sendBuffer.content =
      s'.appended) : Sends (s'.goto t p) (.thread t) where
  flag := by
    change s'.sending = true ↔ _
    rw [hsending, h.flag]
  places u := by
    by_cases hu : u = t
    · subst hu
      simp [hnew]
    · rw [goto_place_of_ne hu, hplace, h.places]
  writes := by
    change s'.writes.length = _
    rw [hwrites, h.writes]
  valid := hvalid
  account := haccount
  waking _ _ := by
    left
    change s'.sending = true
    rw [hsending, h.flag]
    simp

/-- The block of `close` only closes. -/
theorem Sends.closeBlock (h : Sends s turn) : Sends s.closeBlock turn := by
  have hclosed : Sends { s with isOpen := false } turn :=
    h.frame (by simp) rfl rfl rfl rfl rfl rfl rfl
  unfold TcpSession.closeBlock
  by_cases hdestroyed : s.destroyed = true
  · rw [if_pos hdestroyed]
    exact h
  · rw [if_neg hdestroyed]
    by_cases hbusy : (s.sending || s.recving) = true
    · simp only [hbusy, if_true]
      exact hclosed
    · simp only [hbusy]
      exact hclosed.frame id rfl rfl rfl rfl rfl rfl rfl

/-- `request_send` of a thread that finds nobody sending and data to send. -/
theorem Sends.take (h : Sends s turn) (hsending : s.sending = false) :
    Sends ({ s with sending := true }.goto t .transfer) (.thread t) := by
  obtain rfl : turn = .free := by
    by_contra hne
    rw [h.flag.mpr hne] at hsending
    exact absurd hsending (by decide)
  constructor
  · simp [goto]
  · exact places_goto h.places (by simp) (by simp [eq_comm]) (by simp [Place.owns])
  · simpa [goto] using h.writes
  · exact h.valid
  · simpa [inHand, goto] using h.account
  · intro _ _
    exact .inl rfl

/-- The write starts with the segments in hand, and takes the turn along. -/
theorem Sends.startWrite (h : Sends s (.thread t)) (hplace : s.place t = .startWrite) :
    Sends ({ s with
      writes := s.writes ++ [s.sendingSegs.flatten]
      written := s.written ++ [s.sendingSegs.flatten] }.goto t .idle) .flight where
  flag := by simpa [goto] using h.flag
  places := places_goto h.places (by simp [eq_comm]) (by simp) (by simp [Place.owns])
  writes := by simpa [goto] using h.writes
  valid := h.valid
  account := by
    have haccount := h.account
    simp only [inHand, hplace, if_true] at haccount
    simpa [inHand, goto] using haccount
  waking _ _ := .inl (h.flag.mpr (by simp))

/-- The handler of the write takes the turn over. -/
theorem Sends.complete (h : Sends s turn) {i : ℕ} (hi : i < s.writes.length) :
    Sends ({ s with writes := s.writes.eraseIdx i }.goto t .release) (.thread t) := by
  obtain rfl : turn = .flight := by
    by_contra hne
    have hwrites := h.writes
    rw [if_neg hne] at hwrites
    omega
  have hwrites : s.writes.length = 1 := h.writes
  constructor
  · simpa [goto] using h.flag
  · exact places_goto h.places (by simp) (by simp [eq_comm]) (by simp [Place.owns])
  · change (s.writes.eraseIdx i).length = 0
    rw [List.length_eraseIdx_of_lt hi, hwrites]
  · exact h.valid
  · simpa [inHand, goto] using h.account
  · intro _ _
    exact .inl (h.flag.mpr (by simp))

/-- Clearing `sending_` gives the turn back; the thread itself looks at the
buffer next. -/
theorem Sends.clear (h : Sends s (.thread t)) (hplace : s.place t = .clearSending) :
    Sends ({ s with sending := false }.goto t .checkSend) .free where
  flag := by simp [goto]
  places := places_goto h.places (by simp [eq_comm]) (by simp) (by simp [Place.owns])
  writes := by simpa [goto] using h.writes
  valid := h.valid
  account := by simpa [inHand, goto, hplace] using h.account
  waking _ _ := .inr ⟨t, goto_place_self⟩

/-- New data goes behind all the rest, and the thread looks at it next. -/
theorem Sends.append (h : Sends s turn) {data : List UInt8} (hplace : s.place t = .append data)
    {b : SegmentBuffer} (hvalid : b.Valid segmentLength)
    (hcontent : b.content = s.sendBuffer.content ++ data) :
    Sends ({ s with sendBuffer := b, appended := s.appended ++ data }.goto t .checkSend) turn := by
  have hmoved : Sends (s.goto t .checkSend) turn :=
    h.move (by rw [hplace]; rfl) rfl (by rw [hplace]; simp)
  constructor
  · exact hmoved.flag
  · exact hmoved.places
  · exact hmoved.writes
  · exact hvalid
  · have haccount : s.written.flatten ++ (s.goto t .checkSend).inHand turn ++ b.content =
        s.appended ++ data := by
      rw [hcontent, ← List.append_assoc]
      exact congrArg (· ++ data) hmoved.account
    exact haccount
  · intro _ _
    exact .inr ⟨t, goto_place_self⟩

/-- What the next block of a thread does to the sending side. -/
theorem Sends.proceed (h : Sends s turn) (hstep : s.proceed t = some s') :
    ∃ turn', Sends s' turn' := by
  have hturn : (s.place t).owns = true → Sends s (.thread t) := by
    intro hown
    rwa [← (h.places t).mp hown]
  unfold TcpSession.proceed at hstep
  cases hplace : s.place t with
  | idle => simp [hplace] at hstep
  | append data =>
      obtain ⟨b, happend, hvalid, hcontent⟩ := h.valid.append (by decide) data
      simp only [hplace, happend, Option.map_some, Option.some.injEq] at hstep
      subst hstep
      exact ⟨turn, h.append hplace hvalid hcontent⟩
  | checkSend =>
      simp only [hplace] at hstep
      split_ifs at hstep with hreturn
      · obtain rfl := Option.some.inj hstep
        refine ⟨turn, h.move (by rw [hplace]; rfl) rfl ?_⟩
        intro _ hopen hne
        simpa [hopen, h.size_eq_zero, hne] using hreturn
      · obtain rfl := Option.some.inj hstep
        refine ⟨.thread t, h.take ?_⟩
        simp only [Bool.or_eq_true, not_or] at hreturn
        simpa using hreturn.1.1
  | transfer =>
      simp only [hplace] at hstep
      obtain rfl := Option.some.inj hstep
      have ht : Sends s (.thread t) := hturn (by rw [hplace]; rfl)
      obtain ⟨hsegs, hvalid, hnil⟩ := ht.valid.transfer
      refine ⟨.thread t, ht.advance rfl rfl rfl hvalid rfl ?_⟩
      have haccount := ht.account
      simp only [inHand, hplace] at haccount
      simpa [inHand, goto, hnil, hsegs] using haccount
  | startWrite =>
      simp only [hplace] at hstep
      obtain rfl := Option.some.inj hstep
      have ht : Sends s (.thread t) := hturn (by rw [hplace]; rfl)
      exact ⟨.flight, ht.startWrite hplace⟩
  | release =>
      simp only [hplace] at hstep
      obtain rfl := Option.some.inj hstep
      have ht : Sends s (.thread t) := hturn (by rw [hplace]; rfl)
      refine ⟨.thread t, ht.advance rfl rfl rfl ht.valid rfl ?_⟩
      have haccount := ht.account
      simp only [inHand, hplace] at haccount
      simpa [inHand] using haccount
  | clearSending =>
      simp only [hplace] at hstep
      obtain rfl := Option.some.inj hstep
      have ht : Sends s (.thread t) := hturn (by rw [hplace]; rfl)
      exact ⟨.free, ht.clear hplace⟩
  | checkRecv begun =>
      simp only [hplace] at hstep
      split_ifs at hstep with hreturn hbegun
      · obtain rfl := Option.some.inj hstep
        exact ⟨turn, h.move (by rw [hplace]; rfl) rfl (by simp [hplace])⟩
      · obtain rfl := Option.some.inj hstep
        exact ⟨turn, h.move (by rw [hplace]; rfl) rfl (by simp [hplace])⟩
      · obtain rfl := Option.some.inj hstep
        have hframe : Sends { s with recving := true } turn :=
          h.frame id rfl rfl rfl rfl rfl rfl rfl
        refine ⟨turn, hframe.move ?_ rfl ?_⟩ <;> simp [hplace, Place.owns]
  | startRead =>
      simp only [hplace] at hstep
      obtain rfl := Option.some.inj hstep
      have hframe : Sends { s with reads := s.reads + 1 } turn :=
        h.frame id rfl rfl rfl rfl rfl rfl rfl
      refine ⟨turn, hframe.move ?_ rfl ?_⟩ <;> simp [hplace, Place.owns]
  | clearRecving receipt =>
      simp only [hplace] at hstep
      obtain rfl := Option.some.inj hstep
      have hframe : Sends { s with recving := false } turn :=
        h.frame id rfl rfl rfl rfl rfl rfl rfl
      refine ⟨turn, hframe.move ?_ ?_ ?_⟩
      · simp [hplace, Place.owns]
      · split_ifs <;> rfl
      · simp [hplace]
  | close report =>
      simp only [hplace] at hstep
      obtain rfl := Option.some.inj hstep
      refine ⟨turn, h.closeBlock.move ?_ ?_ ?_⟩
      · rw [closeBlock_place, hplace]
        rfl
      · cases report <;> rfl
      · rw [closeBlock_place, hplace]
        simp
  | report =>
      simp only [hplace] at hstep
      obtain rfl := Option.some.inj hstep
      have hframe : Sends { s with errors := s.errors + 1 } turn :=
        h.frame id rfl rfl rfl rfl rfl rfl rfl
      refine ⟨turn, hframe.move ?_ rfl ?_⟩ <;> simp [hplace, Place.owns]

theorem Sends.step (h : Sends s turn) {act : Action T} (hstep : s.step act = some s') :
    ∃ turn', Sends s' turn' := by
  cases act with
  | send t data =>
      simp only [TcpSession.step] at hstep
      split_ifs at hstep with hplace hopen
      · obtain rfl := Option.some.inj hstep
        exact ⟨turn, h.move (by rw [hplace]; rfl) rfl (by simp [hplace])⟩
      · obtain rfl := Option.some.inj hstep
        exact ⟨turn, h⟩
  | disconnect t =>
      simp only [TcpSession.step] at hstep
      split_ifs at hstep with hplace
      obtain rfl := Option.some.inj hstep
      exact ⟨turn, h.move (by rw [hplace]; rfl) rfl (by simp [hplace])⟩
  | writeCompleted t i =>
      simp only [TcpSession.step] at hstep
      split_ifs at hstep with hwrite
      obtain rfl := Option.some.inj hstep
      exact ⟨.thread t, h.complete hwrite.2⟩
  | readCompleted t receipt =>
      simp only [TcpSession.step] at hstep
      split_ifs at hstep with hread
      obtain rfl := Option.some.inj hstep
      have hframe : Sends { s with reads := s.reads - 1 } turn :=
        h.frame id rfl rfl rfl rfl rfl rfl rfl
      refine ⟨turn, hframe.move ?_ rfl ?_⟩ <;> simp [hread.1, Place.owns]
  | proceed t => exact h.proceed hstep

theorem ReachedWhile.sends {ok : TcpSession T → Action T → Prop}
    (h : ReachedWhile ok (initial t) s) : ∃ turn, Sends s turn := by
  induction h with
  | refl => exact ⟨.free, sends_initial t⟩
  | tail _ hstep ih =>
      obtain ⟨turn, hsends⟩ := ih
      obtain ⟨act, -, hact⟩ := hstep
      exact hsends.step hact

/-! ## What a session sends -/

/-- One owner at a time: nobody, a thread between the check that sets
`sending_` and the block that clears it, or a write under way. -/
def OneOwner (s : TcpSession T) : Prop :=
  ∃ turn : Turn T, (s.sending = true ↔ turn ≠ .free) ∧
    (∀ t, (s.place t).owns = true ↔ turn = .thread t) ∧
    s.writes.length = if turn = .flight then 1 else 0

/-- A call of `send` or a completion of a write has not returned. -/
def Place.sends (p : Place) : Prop := p.owns = true ∨ p = .checkSend ∨ ∃ data, p = .append data

/-- No write is under way, every `send` and every completion has returned. -/
def SendQuiet (s : TcpSession T) : Prop := s.writes = [] ∧ ∀ t, ¬ (s.place t).sends

/-- No block of a thread gets stuck: `append` finds the segments it indexes. -/
theorem Reachable.proceeds (h : Reachable s) (hplace : s.place t ≠ .idle) :
    ∃ s', s.proceed t = some s' := by
  obtain ⟨u, hreached⟩ := h
  obtain ⟨turn, hsends⟩ := hreached.sends
  unfold TcpSession.proceed
  cases hp : s.place t with
  | idle => exact absurd hp hplace
  | append data =>
      obtain ⟨b, happend, -, -⟩ := hsends.valid.append (by decide) data
      exact ⟨_, by simp only [happend, Option.map_some]; rfl⟩
  | checkSend => dsimp only; split_ifs <;> exact ⟨_, rfl⟩
  | checkRecv begun => dsimp only; split_ifs <;> exact ⟨_, rfl⟩
  | transfer => exact ⟨_, rfl⟩
  | startWrite => exact ⟨_, rfl⟩
  | release => exact ⟨_, rfl⟩
  | clearSending => exact ⟨_, rfl⟩
  | startRead => exact ⟨_, rfl⟩
  | clearRecving receipt => exact ⟨_, rfl⟩
  | close report => exact ⟨_, rfl⟩
  | report => exact ⟨_, rfl⟩

/-- Every interleaving of a session whose socket is open: one write at a time,
the buffers written are the data appended so far, in order, and when nothing
is pending they are all of it. -/
theorem written_complete (h : Reachable s) (hopen : s.isOpen = true) :
    s.OneOwner ∧ s.writes.length ≤ 1 ∧ s.written.flatten <+: s.appended ∧
      (s.SendQuiet → s.written.flatten = s.appended ∧ s.sendBuffer.size = 0) := by
  obtain ⟨u, hreached⟩ := h
  obtain ⟨turn, hsends⟩ := hreached.sends
  refine ⟨⟨turn, hsends.flag, hsends.places, hsends.writes⟩, ?_, ?_, ?_⟩
  · rw [hsends.writes]
    split_ifs <;> decide
  · rw [← hsends.account, List.append_assoc]
    exact List.prefix_append _ _
  · rintro ⟨hwrites, hplaces⟩
    -- nobody has the turn, and nobody is left to look at the buffer
    have hfree : s.sending = false := by
      by_contra hsending
      rw [Bool.not_eq_false, hsends.flag] at hsending
      cases turn with
      | free => exact hsending rfl
      | thread t => exact hplaces t (.inl ((hsends.places t).mpr rfl))
      | flight =>
          have hlen := hsends.writes
          simp [hwrites] at hlen
    have hnil : s.sendBuffer.content = [] := by
      by_contra hne
      rcases hsends.waking hopen hne with hsending | ⟨t, ht⟩
      · rw [hfree] at hsending
        exact absurd hsending (by decide)
      · exact hplaces t (.inr (.inl ht))
    refine ⟨?_, hsends.size_eq_zero.mpr hnil⟩
    obtain rfl : turn = .free := by
      by_contra hne
      rw [hsends.flag.mpr hne] at hfree
      exact absurd hfree (by decide)
    have haccount := hsends.account
    simpa [inHand, hnil] using haccount

/-- A run of given steps. -/
def run : TcpSession T → List (Action T) → Option (TcpSession T)
  | s, [] => some s
  | s, act :: acts => (s.step act).bind fun s ↦ run s acts

theorem reachedWhile_of_run {acts : List (Action T)} (h : s.run acts = some s') :
    ReachedWhile (fun _ _ ↦ True) s s' := by
  induction acts generalizing s with
  | nil =>
      obtain rfl : s = s' := by simpa [run] using h
      exact .refl
  | cons act acts ih =>
      obtain ⟨s₁, hstep, hrun⟩ := Option.bind_eq_some_iff.mp h
      exact .head ⟨act, trivial, hstep⟩ (ih hrun)

/-- A session whose `begin` has asked for data. -/
def begun : List (Action Bool) := [.proceed false, .proceed false]

/-- Two bytes on their way: appended, checked, taken and written. -/
def sendTwo : List (Action Bool) :=
  begun ++ [.send true [1, 2], .proceed true, .proceed true, .proceed true, .proceed true]

theorem written_complete_two :
    ∃ s, (initial false).run sendTwo = some s ∧ s.isOpen = true ∧ s.OneOwner ∧
      s.writes = [[1, 2]] ∧ s.written.flatten <+: s.appended := by
  obtain ⟨s, hrun⟩ : ∃ s, (initial false).run sendTwo = some s := ⟨_, rfl⟩
  have hopen : ((initial false).run sendTwo).map TcpSession.isOpen = some true := by rfl
  have hwrites : ((initial false).run sendTwo).map TcpSession.writes = some [[1, 2]] := by rfl
  rw [hrun, Option.map_some, Option.some.injEq] at hopen hwrites
  obtain ⟨howner, -, hprefix, -⟩ := written_complete ⟨false, reachedWhile_of_run hrun⟩ hopen
  exact ⟨s, hrun, hopen, howner, hwrites, hprefix⟩

end

end TcpSession

end WiseKernel.Net
