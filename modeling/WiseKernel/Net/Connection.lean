import WiseKernel.Lib.Runs
import WiseKernel.Net.Streams
import WiseKernel.Net.TcpSession

/-!
# A connection from end to end

One direction of a connection: threads that call `bits_protocol::send`, the session
with its asynchronous writes, the bytes on the way, and the `on_recv` of the peer.  The
frame of a packet is appended to the session some time after the modifiers have seen
it, and what has been written arrives in pieces of any length.
-/

namespace WiseKernel.Net

open WiseKernel.Lib

/-! ## The data that a thread is about to append -/

namespace TcpSession

/-- The thread that takes a step. -/
def Action.thread {T : Type} : Action T → T
  | .send t _ | .disconnect t | .writeCompleted t _ | .readCompleted t _ | .proceed t => t

def Action.isSend {T : Type} : Action T → Bool
  | .send _ _ => true
  | _ => false

def Place.data? : Place → Option (List UInt8)
  | .append data => some data
  | _ => none

variable {T : Type}

def waiting (s : TcpSession T) (t : T) : Option (List UInt8) := (s.place t).data?

variable [DecidableEq T] {s s₀ s' : TcpSession T} {t : T} {p : Place} {data : List UInt8}

theorem waiting_goto : (s.goto t p).waiting = Function.update s.waiting t p.data? := by
  funext u
  by_cases hu : u = t
  · rw [waiting, hu, goto_place_self, Function.update_self]
  · rw [waiting, goto_place_of_ne hu, Function.update_of_ne hu, waiting]

/-- How a step changes what waits and the history of the session. -/
structure Waits (s s' : TcpSession T) (waiting : T → Option (List UInt8)) (data : List UInt8) :
    Prop where
  waiting_eq : s'.waiting = waiting
  appended_eq : s'.appended = s.appended ++ data
  written_prefix : s.written.flatten <+: s'.written.flatten

theorem waits_of_goto (hp : p.data? = none) (hplace : s₀.place = s.place)
    (happended : s₀.appended = s.appended ++ data)
    (hwritten : s.written.flatten <+: s₀.written.flatten) :
    Waits s (s₀.goto t p) (Function.update s.waiting t none) data where
  waiting_eq := by
    have hwaiting : s₀.waiting = s.waiting := by
      funext u
      rw [waiting, waiting, hplace]
    rw [waiting_goto, hp, hwaiting]
  appended_eq := happended
  written_prefix := hwritten

theorem waiting_of_idle (h : s.place t = .idle) : (s.waiting t).getD [] = [] := by
  rw [waiting, h]
  rfl

/-- Whatever block a thread runs, it has nothing to append behind it. -/
theorem waits_of_proceed (h : s.proceed t = some s') :
    Waits s s' (Function.update s.waiting t none) ((s.waiting t).getD []) := by
  unfold TcpSession.proceed at h
  have hsame : s.appended = s.appended ++ [] := by rw [List.append_nil]
  have hwritten : s.written.flatten <+: s.written.flatten := List.prefix_refl _
  rw [waiting]
  cases hp : s.place t with
  | idle => simp [hp] at h
  | append data =>
      simp only [hp, Option.map_eq_some_iff] at h
      obtain ⟨b, -, rfl⟩ := h
      exact waits_of_goto rfl rfl rfl hwritten
  | transfer =>
      simp only [hp, Option.some.injEq] at h
      subst h
      exact waits_of_goto rfl rfl hsame hwritten
  | startWrite =>
      simp only [hp, Option.some.injEq] at h
      subst h
      refine waits_of_goto rfl rfl hsame ?_
      rw [List.flatten_append]
      exact List.prefix_append _ _
  | checkSend =>
      simp only [hp] at h
      split_ifs at h <;> obtain rfl := Option.some.inj h <;>
        exact waits_of_goto rfl rfl hsame hwritten
  | checkRecv begun =>
      simp only [hp] at h
      cases begun <;> split_ifs at h <;> obtain rfl := Option.some.inj h <;>
        exact waits_of_goto rfl rfl hsame hwritten
  | clearRecving receipt =>
      simp only [hp] at h
      split_ifs at h <;> obtain rfl := Option.some.inj h <;>
        exact waits_of_goto rfl rfl hsame hwritten
  | close report =>
      simp only [hp] at h
      obtain ⟨isOpen, destroyed, hclose⟩ := closeBlock_eq (s := s)
      rw [hclose] at h
      cases report <;> obtain rfl := Option.some.inj h <;>
        exact waits_of_goto rfl rfl hsame hwritten
  | release | clearSending | startRead | report =>
      simp only [hp, Option.some.injEq] at h
      subst h
      exact waits_of_goto rfl rfl hsame hwritten

theorem waits_of_step {act : Action T} (h : s.step act = some s') (hsend : act.isSend = false) :
    Waits s s' (Function.update s.waiting act.thread none) ((s.waiting act.thread).getD []) := by
  have hsame : s.appended = s.appended ++ [] := by rw [List.append_nil]
  have hwritten : s.written.flatten <+: s.written.flatten := List.prefix_refl _
  cases act with
  | send t data => cases hsend
  | proceed t => exact waits_of_proceed h
  | disconnect t =>
      simp only [TcpSession.step] at h
      split_ifs at h with hplace
      obtain rfl := Option.some.inj h
      rw [Action.thread, waiting_of_idle hplace]
      exact waits_of_goto rfl rfl hsame hwritten
  | writeCompleted t i =>
      simp only [TcpSession.step] at h
      split_ifs at h with hwrite
      obtain rfl := Option.some.inj h
      rw [Action.thread, waiting_of_idle hwrite.1]
      exact waits_of_goto rfl rfl hsame hwritten
  | readCompleted t receipt =>
      simp only [TcpSession.step] at h
      split_ifs at h with hread
      obtain rfl := Option.some.inj h
      rw [Action.thread, waiting_of_idle hread.1]
      exact waits_of_goto rfl rfl hsame hwritten

/-- A call of `send` in an open session. -/
theorem waits_of_send (h : s.step (.send t data) = some s') (hopen : s.isOpen = true) :
    s.waiting t = none ∧ Waits s s' (Function.update s.waiting t (some data)) [] := by
  simp only [TcpSession.step, if_pos hopen] at h
  split_ifs at h with hplace
  obtain rfl := Option.some.inj h
  refine ⟨by rw [waiting, hplace]; rfl, waiting_goto, ?_, List.prefix_refl _⟩
  rw [List.append_nil]
  rfl

end TcpSession

/-! ## The connection -/

/-- `holding` is the packet whose frame a thread is about to append.  `called` are the
calls of `send` that have found the session open, `sent` those whose frame has been
appended, and `exits` and `published` is what the calls of `on_recv` have done. -/
structure Connection (T P : Type) where
  mods : Modifiers
  session : TcpSession T
  holding : T → Option P
  called : List (T × P)
  sent : List (T × P)
  arrived : ℕ
  peer : BitsProtocol
  exits : List Exit
  published : List P

namespace Connection

inductive Action (T P : Type)
  | send (t : T) (p : P)
  /-- any other step of the session -/
  | session (act : TcpSession.Action T)
  /-- the next bytes of what has been written arrive -/
  | receive (count fuel : ℕ)

variable {T P : Type} [DecidableEq T]

def initial (t : T) : Connection T P where
  mods := .initial
  session := .initial t
  holding _ := none
  called := []
  sent := []
  arrived := 0
  peer := .initial
  exits := []
  published := []

/-- The bytes that have been given to `async_write`. -/
def wire (c : Connection T P) : List UInt8 := c.session.written.flatten

/-- The packet that a thread holds, with the thread. -/
def held (holding : T → Option P) (t : T) : List (T × P) := (holding t).toList.map fun p ↦ (t, p)

section

variable (E : Env P)

/-- `bits_protocol::send` up to the lock in `tcp_session::send`.  A packet that does not
come to the session, and a thread that is busy, make no step. -/
def send (c : Connection T P) (t : T) (p : P) : Option (Connection T P) :=
  match (sendFrame E c.mods p).out with
  | .ok (_, mods, some (.tcp frame)) =>
      (c.session.step (.send t frame)).map fun session ↦
        if c.session.isOpen then
          { c with
            mods := mods
            session := session
            holding := Function.update c.holding t (some p)
            called := c.called ++ [(t, p)] }
        else { c with mods := mods, session := session }
  | _ => none

/-- The session goes on.  A thread that holds a packet appends its frame next. -/
def advance (c : Connection T P) (act : TcpSession.Action T) : Option (Connection T P) :=
  if act.isSend then none
  else (c.session.step act).map fun session ↦
    { c with
      session := session
      sent := c.sent ++ held c.holding act.thread
      holding := Function.update c.holding act.thread none }

/-- `on_recv` is not called again after it has failed. -/
def receive (c : Connection T P) (count fuel : ℕ) : Option (Connection T P) :=
  let chunk := (c.wire.drop c.arrived).take count
  if chunk = [] ∨ ∃ e ∈ c.exits, e ≠ .returned .ok then none
  else (onRecv E fuel c.peer chunk).map fun (e, peer, ps) ↦
    { c with
      arrived := c.arrived + chunk.length
      peer := peer
      exits := c.exits ++ [e]
      published := c.published ++ ps }

def step (c : Connection T P) : Action T P → Option (Connection T P)
  | .send t p => c.send E t p
  | .session act => c.advance act
  | .receive count fuel => c.receive E count fuel

/-- A packet that the peer knows and no modifier touches, within the limits. -/
structure Sendable (p : P) : Prop where
  registered : ∃ mp, Registered E p mp
  plain : needsToModify E.cfg (E.ops.flags p) = false
  remote : E.cfg.enableLoopback = false
  length_le : (packed E p).length ≤ E.cfg.maxPacketLength
  length_lt : (packed E p).length < 2 ^ 32

/-- Every packet that is sent is sendable. -/
def Plain (_ : Connection T P) : Action T P → Prop
  | .send _ p => Sendable E p
  | _ => True

end

variable {E : Env P} {c c' : Connection T P}

/-- The frames in the order in which they have been appended. -/
def frames (E : Env P) (c : Connection T P) : List (Frame P) :=
  c.sent.map fun e ↦ plainFrame E e.2

/-- How far the peer has come: so many frames are complete, and the beginning of the next
one waits in its buffer. -/
structure Received (E : Env P) (c : Connection T P) (rest : List UInt8) : Prop where
  buffer_eq : c.peer.recvBuf = ⟨rest, 0⟩
  bytes_eq : c.wire.take c.arrived = wires ((c.frames E).take c.published.length) ++ rest
  incomplete : Incomplete (((c.frames E).drop c.published.length).map Frame.wire) rest
  published_eq : c.published = ((c.frames E).take c.published.length).map Frame.packet
  arrived_le : c.arrived ≤ c.wire.length

structure Inv (E : Env P) (c : Connection T P) : Prop where
  sends : ∃ turn, TcpSession.Sends c.session turn
  appended_eq : c.session.appended = wires (c.frames E)
  waiting_eq : c.session.waiting = Option.map (packed E) ∘ c.holding
  order : ∀ t, c.sent.filter (·.1 = t) ++ held c.holding t = c.called.filter (·.1 = t)
  sendable : ∀ e ∈ c.called, Sendable E e.2
  returned : ∀ e ∈ c.exits, e = .returned .ok
  received : ∃ rest, Received E c rest

theorem inv_initial (t : T) : Inv E (initial t : Connection T P) where
  sends := ⟨.free, TcpSession.sends_initial t⟩
  appended_eq := rfl
  waiting_eq := by
    funext u
    change (Function.update (fun _ ↦ TcpSession.Place.idle) t (.checkRecv true) u).data? = none
    by_cases hu : u = t
    · rw [hu, Function.update_self]
      rfl
    · rw [Function.update_of_ne hu]
      rfl
  order _ := rfl
  sendable e he := absurd he List.not_mem_nil
  returned e he := absurd he List.not_mem_nil
  received := ⟨[], rfl, rfl, rfl, rfl, Nat.le_refl 0⟩

/-! ### More frames, more bytes -/

theorem incomplete_append {ws vs : List (List UInt8)} {rest : List UInt8}
    (h : Incomplete ws rest) (hvs : ∀ v ∈ vs, 0 < v.length) : Incomplete (ws ++ vs) rest := by
  cases ws with
  | cons w ws => exact h
  | nil =>
      have hrest : rest = [] := h
      subst hrest
      cases vs with
      | nil => rfl
      | cons v vs => exact hvs v List.mem_cons_self

omit [DecidableEq T] in
theorem Received.length_le {rest : List UInt8} (h : Received E c rest) :
    c.published.length ≤ (c.frames E).length := by
  have hlength := congrArg List.length h.published_eq
  rw [List.length_map, List.length_take] at hlength
  omega

theorem Received.mono {rest : List UInt8} (h : Received E c rest) (fs : List (Frame P))
    (hframes : c'.frames E = c.frames E ++ fs) (hfs : ∀ f ∈ fs, 0 < f.wire.length)
    (hwire : c.wire <+: c'.wire) (hpeer : c'.peer = c.peer) (harrived : c'.arrived = c.arrived)
    (hpublished : c'.published = c.published) : Received E c' rest := by
  have hle := h.length_le
  have htake : (c'.frames E).take c'.published.length =
      (c.frames E).take c.published.length := by
    rw [hframes, hpublished, List.take_append_of_le_length hle]
  obtain ⟨more, hmore⟩ := hwire
  constructor
  · rw [hpeer, h.buffer_eq]
  · rw [htake, harrived, ← hmore, List.take_append_of_le_length h.arrived_le, h.bytes_eq]
  · rw [hframes, hpublished, List.drop_append_of_le_length hle, List.map_append]
    apply incomplete_append h.incomplete
    intro v hv
    obtain ⟨f, hf, rfl⟩ := List.mem_map.mp hv
    exact hfs f hf
  · rw [htake, hpublished]
    exact h.published_eq
  · rw [harrived, ← hmore, List.length_append]
    have := h.arrived_le
    omega

theorem Sendable.length_pos {p : P} (h : Sendable E p) : 0 < (packed E p).length := by
  obtain ⟨mp, hmp⟩ := h.registered
  rw [length_packed hmp.packs, headerLength]
  omega

theorem send_of_sendable {p : P} (h : Sendable E p) (mods : Modifiers) :
    (sendFrame E mods p).out = .ok (.ok, mods, some (.tcp (packed E p))) := by
  obtain ⟨mp, hmp⟩ := h.registered
  rw [sendFrame, pack_eq hmp.packs, ← packed_eq hmp.packs, h.plain, h.remote]
  rfl

theorem Inv.sendable_of_sent (h : Inv E c) : ∀ e ∈ c.sent, Sendable E e.2 := by
  intro e he
  apply h.sendable e
  have hfilter : e ∈ c.called.filter (·.1 = e.1) := by
    rw [← h.order]
    apply List.mem_append_left
    exact List.mem_filter.mpr ⟨he, by simp⟩
  exact List.mem_of_mem_filter hfilter

/-! ### The steps -/

theorem Inv.send (h : Inv E c) {t : T} {p : P} (hp : Sendable E p)
    (hstep : c.send E t p = some c') : Inv E c' := by
  rw [Connection.send, send_of_sendable hp] at hstep
  obtain ⟨session, hsession, rfl⟩ := Option.map_eq_some_iff.mp hstep
  obtain ⟨turn, hsends⟩ := h.sends
  by_cases hopen : c.session.isOpen = true
  · rw [if_pos hopen]
    obtain ⟨hnone, hwaits⟩ := TcpSession.waits_of_send hsession hopen
    have hidle : c.holding t = none := by
      have hholding := congrFun h.waiting_eq t
      rw [hnone] at hholding
      exact Option.map_eq_none_iff.mp hholding.symm
    constructor
    · exact hsends.step hsession
    · rw [hwaits.appended_eq, List.append_nil]
      exact h.appended_eq
    · rw [hwaits.waiting_eq, h.waiting_eq]
      exact (Function.comp_update (Option.map (packed E)) c.holding t (some p)).symm
    · intro u
      rw [List.filter_append, ← h.order u, List.append_assoc]
      congr 1
      by_cases hu : u = t
      · subst hu
        simp [held, hidle]
      · have hne : t ≠ u := fun htu ↦ hu htu.symm
        simp [held, hu, hne]
    · intro e he
      rcases List.mem_append.mp he with hcalled | hnew
      · exact h.sendable e hcalled
      · rw [List.mem_singleton.mp hnew]
        exact hp
    · exact h.returned
    · obtain ⟨rest, hrest⟩ := h.received
      refine ⟨rest, hrest.mono [] (List.append_nil _).symm ?_ hwaits.written_prefix rfl rfl rfl⟩
      intro f hf
      exact absurd hf List.not_mem_nil
  · -- the session is closed, and the call returns
    rw [if_neg hopen]
    have hsame : session = c.session := by
      simp only [TcpSession.step, if_neg hopen] at hsession
      split_ifs at hsession
      exact (Option.some.inj hsession).symm
    subst hsame
    exact { h with }

theorem Inv.advance (h : Inv E c) {act : TcpSession.Action T}
    (hstep : c.advance act = some c') : Inv E c' := by
  rw [Connection.advance] at hstep
  split_ifs at hstep with hsend
  obtain ⟨session, hsession, rfl⟩ := Option.map_eq_some_iff.mp hstep
  obtain ⟨turn, hsends⟩ := h.sends
  have hwaits := TcpSession.waits_of_step hsession (Bool.eq_false_iff.mpr hsend)
  set t := act.thread with ht
  have hdata : (c.session.waiting t).getD [] =
      wires ((held c.holding t).map fun e ↦ plainFrame E e.2) := by
    rw [h.waiting_eq, Function.comp_apply, held]
    cases c.holding t with
    | none => rfl
    | some p => simp [wires, plainFrame]
  have hheld : ∀ e ∈ held c.holding t, Sendable E e.2 := by
    intro e he
    apply h.sendable e
    have hfilter : e ∈ c.called.filter (·.1 = t) := by
      rw [← h.order]
      exact List.mem_append_right _ he
    exact List.mem_of_mem_filter hfilter
  constructor
  · exact hsends.step hsession
  · rw [hwaits.appended_eq, h.appended_eq, hdata, ← wires_append, frames, frames,
      List.map_append]
  · rw [hwaits.waiting_eq, h.waiting_eq]
    exact (Function.comp_update (Option.map (packed E)) c.holding t none).symm
  · intro u
    rw [← h.order u, List.filter_append]
    by_cases hu : u = t
    · subst hu
      cases hholding : c.holding t with
      | none => simp [held, hholding]
      | some p => simp [held, hholding]
    · have hne : t ≠ u := fun htu ↦ hu htu.symm
      simp [held, hu, hne]
  · exact h.sendable
  · exact h.returned
  · obtain ⟨rest, hrest⟩ := h.received
    refine ⟨rest, hrest.mono ((held c.holding t).map fun e ↦ plainFrame E e.2) ?_ ?_
      hwaits.written_prefix rfl rfl rfl⟩
    · rw [frames, frames, List.map_append]
    · intro f hf
      obtain ⟨e, he, rfl⟩ := List.mem_map.mp hf
      exact (hheld e he).length_pos

/-- What has arrived is the beginning of what has been appended. -/
theorem Inv.wire_prefix (h : Inv E c) : c.wire <+: wires (c.frames E) := by
  obtain ⟨turn, hsends⟩ := h.sends
  rw [← h.appended_eq, ← hsends.account, List.append_assoc]
  exact List.prefix_append _ _

theorem onRecv_mono {fuel fuel' : ℕ} (hle : fuel ≤ fuel') {proto : BitsProtocol}
    {bytes : List UInt8} {out : Exit × BitsProtocol × List P}
    (h : onRecv E fuel proto bytes = some out) : onRecv E fuel' proto bytes = some out := by
  rw [onRecv] at h ⊢
  split_ifs at h ⊢ with hnil
  · exact h
  · obtain ⟨res, hloop, hout⟩ := Option.map_eq_some_iff.mp h
    exact Option.map_eq_some_iff.mpr ⟨res, onRecvLoop_mono hle hloop, hout⟩

/-- The call of `on_recv` for the next bytes: it publishes the packets that are
complete now. -/
theorem Inv.onRecv_chunk (h : Inv E c) {count : ℕ}
    (hne : (c.wire.drop c.arrived).take count ≠ []) :
    ∃ fuel k mods rest,
      (∀ n, fuel ≤ n → onRecv E n c.peer ((c.wire.drop c.arrived).take count) =
        some (.returned .ok, ⟨⟨rest, 0⟩, mods⟩,
          (((c.frames E).drop c.published.length).take k).map Frame.packet)) ∧
      c.wire.take (c.arrived + ((c.wire.drop c.arrived).take count).length) =
        wires ((c.frames E).take (c.published.length + k)) ++ rest ∧
      c.published.length + k ≤ (c.frames E).length ∧
      Incomplete (((c.frames E).drop (c.published.length + k)).map Frame.wire) rest := by
  obtain ⟨rest, hreceived⟩ := h.received
  have hpublished := hreceived.length_le
  set chunk := (c.wire.drop c.arrived).take count with hchunk
  set fs := c.frames E with hfs
  set done := c.published.length with hdone
  have hbytes :
      c.wire.take (c.arrived + chunk.length) = wires (fs.take done) ++ (rest ++ chunk) := by
    have hpiece : chunk = (c.wire.drop c.arrived).take chunk.length := by
      rw [hchunk, List.length_take, List.take_eq_take_iff]
      omega
    rw [List.take_add, hreceived.bytes_eq, List.append_assoc, ← hpiece]
  have hpre : rest ++ chunk <+: wires (fs.drop done) := by
    have hall : wires (fs.take done) ++ (rest ++ chunk) <+: wires fs := by
      rw [← hbytes]
      exact (List.take_prefix _ _).trans h.wire_prefix
    rw [← List.take_append_drop done fs, wires_append, List.take_append_drop] at hall
    exact (List.prefix_append_right_inj _).mp hall
  obtain ⟨rest', hcut, hrest', hinc⟩ := exists_completeFrames hpre
  set k := completeFrames (fs.drop done) (rest ++ chunk).length with hk
  have hle : k ≤ (fs.drop done).length := by
    have hcomplete := complete_le ((fs.drop done).map Frame.wire) (rest ++ chunk).length
    rwa [List.length_map] at hcomplete
  have hsendable := h.sendable_of_sent
  have hchain : Chain E c.peer.mods ((fs.drop done).take k ++ (fs.drop done).drop k)
      c.peer.mods := by
    have hpackets : ∀ p ∈ (c.sent.drop done).map Prod.snd, Sendable E p := by
      intro p hp
      obtain ⟨e, he, rfl⟩ := List.mem_map.mp hp
      exact hsendable e (List.mem_of_mem_drop he)
    have hplain := chain_plain (fun p hp ↦ (hpackets p hp).registered)
      (fun p hp ↦ (hpackets p hp).plain) (fun p hp ↦ (hpackets p hp).length_le)
      (fun p hp ↦ (hpackets p hp).length_lt) c.peer.mods
    rw [List.take_append_drop, hfs, frames, ← List.map_drop]
    rw [List.map_map] at hplain
    exact hplain
  have htight : ∀ f ∈ ((fs.drop done).take k).dropLast, f.Tight := by
    intro f hf
    have hmem : f ∈ fs :=
      List.mem_of_mem_drop (List.mem_of_mem_take ((List.dropLast_sublist _).subset hf))
    obtain ⟨e, -, rfl⟩ := List.mem_map.mp hmem
    rfl
  obtain ⟨mods, fuel, -, hrun⟩ := hchain.onRecv htight hne hcut hrest' hinc
  have hpeer : c.peer = ⟨⟨rest, 0⟩, c.peer.mods⟩ := by
    rw [← hreceived.buffer_eq]
  refine ⟨fuel, k, mods, rest', ?_, ?_, ?_, ?_⟩
  · intro n hn
    rw [hpeer]
    exact hrun n hn
  · rw [hbytes, hcut, List.take_add, wires_append, List.append_assoc]
  · rw [List.length_drop] at hle
    omega
  · rw [← List.drop_drop]
    exact hinc

theorem Inv.receive (h : Inv E c) {count fuel : ℕ}
    (hstep : c.receive E count fuel = some c') : Inv E c' := by
  simp only [Connection.receive] at hstep
  split_ifs at hstep with hstop
  have hne : (c.wire.drop c.arrived).take count ≠ [] := fun hnil ↦ hstop (.inl hnil)
  obtain ⟨enough, k, mods, rest, hrun, hbytes, hle, hinc⟩ := h.onRecv_chunk hne
  obtain ⟨out, hout, rfl⟩ := Option.map_eq_some_iff.mp hstep
  -- more fuel gives the same call
  have hmore := onRecv_mono (Nat.le_max_left fuel enough) hout
  rw [hrun _ (Nat.le_max_right fuel enough)] at hmore
  obtain rfl := Option.some.inj hmore
  obtain ⟨old, hreceived⟩ := h.received
  set ps := (((c.frames E).drop c.published.length).take k).map Frame.packet with hps
  have hlength : (c.published ++ ps).length = c.published.length + k := by
    rw [List.length_append, hps, List.length_map, List.length_take, List.length_drop]
    omega
  refine { h with returned := ?_, received := ⟨rest, ?_⟩ }
  · intro e he
    rcases List.mem_append.mp he with hold | hnew
    · exact h.returned e hold
    · exact List.mem_singleton.mp hnew
  · constructor
    · rfl
    · rw [hlength]
      exact hbytes
    · rw [hlength]
      exact hinc
    · rw [hlength]
      change c.published ++ ps = ((c.frames E).take (c.published.length + k)).map Frame.packet
      rw [List.take_add, List.map_append, ← hreceived.published_eq]
    · change c.arrived + _ ≤ c.wire.length
      have := hreceived.arrived_le
      rw [List.length_take, List.length_drop]
      omega

theorem inv_of_reaches {t : T} (h : Reaches (step E) (Plain E) (initial t) c) : Inv E c := by
  refine h.invariant (inv_initial t) ?_
  intro c act c' hinv hok hstep
  cases act with
  | send t p => exact hinv.send hok hstep
  | session act => exact hinv.advance hstep
  | receive count fuel => exact hinv.receive hstep

/-! ### From the calls to the peer -/

/-- When nobody is left who would send, all that was appended has been written. -/
theorem wire_eq_of_quiet (h : Inv E c) (hopen : c.session.isOpen = true)
    (hquiet : c.session.SendQuiet) : c.wire = wires (c.frames E) := by
  obtain ⟨turn, hsends⟩ := h.sends
  obtain ⟨hwrites, hplaces⟩ := hquiet
  have hturn : turn = .free := by
    cases turn with
    | free => rfl
    | thread t => exact absurd (.inl ((hsends.places t).mpr rfl)) (hplaces t)
    | flight =>
        have hlength := hsends.writes
        rw [hwrites, if_pos rfl] at hlength
        cases hlength
  subst hturn
  have hcontent : c.session.sendBuffer.content = [] := by
    by_contra hne
    rcases hsends.waking hopen hne with hsending | ⟨t, ht⟩
    · exact hsends.flag.mp hsending rfl
    · exact hplaces t (.inr (.inl ht))
  have haccount : c.wire ++ [] ++ c.session.sendBuffer.content = c.session.appended :=
    hsends.account
  rw [hcontent, List.append_nil, List.append_nil, h.appended_eq] at haccount
  exact haccount

theorem Inv.holding_of_quiet (h : Inv E c) (hquiet : c.session.SendQuiet) (t : T) :
    c.holding t = none := by
  have hwaiting := congrFun h.waiting_eq t
  rw [TcpSession.waiting, Function.comp_apply] at hwaiting
  cases hplace : c.session.place t with
  | append data => exact absurd (.inr (.inr ⟨data, hplace⟩)) (hquiet.2 t)
  | _ =>
      rw [hplace] at hwaiting
      exact Option.map_eq_none_iff.mp hwaiting.symm

/-- In every interleaving of the senders, the session, the network and the peer: no call
of `on_recv` fails, what the peer has published is the beginning of what was appended,
and each sender's packets are appended in the order of its calls. -/
theorem published_in_order {t : T} (h : Reaches (step E) (Plain E) (initial t) c) :
    (∀ e ∈ c.exits, e = .returned .ok) ∧ c.published <+: c.sent.map Prod.snd ∧
      ∀ u, c.sent.filter (·.1 = u) <+: c.called.filter (·.1 = u) := by
  have hinv := inv_of_reaches h
  refine ⟨hinv.returned, ?_, ?_⟩
  · obtain ⟨rest, hreceived⟩ := hinv.received
    rw [hreceived.published_eq, frames, ← List.map_take, List.map_map]
    exact (List.take_prefix _ _).map Prod.snd
  · intro u
    rw [← hinv.order u]
    exact List.prefix_append _ _

/-- Nothing is lost: what has been written can always be received, and when all calls
have returned, no write is under way and all bytes have arrived, every packet of every
call has been published, once and in order. -/
theorem published_all {t : T} (h : Reaches (step E) (Plain E) (initial t) c)
    (hopen : c.session.isOpen = true) :
    (∀ count, 0 < count → c.arrived < c.wire.length →
      ∃ fuel c', step E c (.receive count fuel) = some c' ∧ c.arrived < c'.arrived) ∧
    (c.session.SendQuiet → c.arrived = c.wire.length →
      c.published = c.sent.map Prod.snd ∧ c.peer.recvBuf = ⟨[], 0⟩ ∧
        ∀ u, c.sent.filter (·.1 = u) = c.called.filter (·.1 = u)) := by
  have hinv := inv_of_reaches h
  constructor
  · intro count hcount harrived
    set chunk := (c.wire.drop c.arrived).take count with hchunk
    have hlength : 0 < chunk.length := by
      rw [hchunk, List.length_take, List.length_drop]
      omega
    have hne : chunk ≠ [] := List.ne_nil_of_length_pos hlength
    obtain ⟨fuel, k, mods, rest, hrun, -⟩ := hinv.onRecv_chunk hne
    have hgo : ¬ (chunk = [] ∨ ∃ e ∈ c.exits, e ≠ .returned .ok) := by
      rintro (hnil | ⟨e, he, hfailed⟩)
      · exact hne hnil
      · exact hfailed (hinv.returned e he)
    refine ⟨fuel,
      { c with
        arrived := c.arrived + chunk.length
        peer := ⟨⟨rest, 0⟩, mods⟩
        exits := c.exits ++ [.returned .ok]
        published := c.published ++
          (((c.frames E).drop c.published.length).take k).map Frame.packet }, ?_, ?_⟩
    · simp only [step, receive]
      rw [if_neg hgo, hrun fuel (Nat.le_refl fuel)]
      rfl
    · exact Nat.lt_add_of_pos_right hlength
  · intro hquiet harrived
    obtain ⟨rest, hreceived⟩ := hinv.received
    have hbytes := hreceived.bytes_eq
    rw [harrived, List.take_length, wire_eq_of_quiet hinv hopen hquiet] at hbytes
    -- the frames behind the published ones have all arrived, but none is complete
    have hrest : wires ((c.frames E).drop c.published.length) = rest := by
      nth_rewrite 1 [← List.take_append_drop c.published.length (c.frames E)] at hbytes
      rw [wires_append] at hbytes
      exact List.append_cancel_left hbytes
    have hdrop : (c.frames E).drop c.published.length = [] := by
      cases hframes : (c.frames E).drop c.published.length with
      | nil => rfl
      | cons f fs =>
          have hinc := hreceived.incomplete
          rw [hframes] at hinc hrest
          have hlt : rest.length < f.wire.length := hinc
          rw [← hrest, wires, List.map_cons, List.flatten_cons, List.length_append] at hlt
          omega
    refine ⟨?_, ?_, ?_⟩
    · have hle := List.drop_eq_nil_iff.mp hdrop
      rw [hreceived.published_eq, List.take_of_length_le hle, frames, List.map_map]
      rfl
    · rw [hreceived.buffer_eq, ← hrest, hdrop]
      rfl
    · intro u
      rw [← hinv.order u, held, hinv.holding_of_quiet hquiet u]
      exact (List.append_nil _).symm

/-! ### One byte on its way -/

theorem sendable_byte (b : UInt8) : Sendable byteEnv b where
  registered := ⟨0, rfl, rfl, rfl, rfl⟩
  plain := rfl
  remote := rfl
  length_le := by
    rw [length_packed rfl]
    exact (by decide : 9 ≤ 512 * 1024)
  length_lt := by
    rw [length_packed rfl]
    exact (by decide : 9 < 2 ^ 32)

theorem plain_byte (c : Connection T UInt8) (act : Action T UInt8) : Plain byteEnv c act := by
  cases act with
  | send t b => exact sendable_byte b
  | _ => trivial

/-- Thread `true` sends a byte, whose frame arrives in two pieces. -/
def byteRun : List (Action Bool UInt8) :=
  [.session (.proceed false), .session (.proceed false), .send true 5, .session (.proceed true),
    .session (.proceed true), .session (.proceed true), .session (.proceed true),
    .receive 3 2, .session (.writeCompleted true 0), .session (.proceed true),
    .session (.proceed true), .session (.proceed true), .receive 8 2]

theorem exists_byteRun : ∃ c, Reaches (step byteEnv) (Plain byteEnv) (initial false) c ∧
    (c.session.isOpen && c.session.writes.isEmpty && c.session.place false == .idle &&
      c.session.place true == .idle && c.arrived == c.wire.length &&
        c.called == [(true, 5)]) = true :=
  exists_reaches byteRun (fun c act _ ↦ plain_byte c act) rfl

theorem published_in_order_byte : ∃ c : Connection Bool UInt8, c.called = [(true, 5)] ∧
    (∀ e ∈ c.exits, e = .returned .ok) ∧ c.published <+: c.sent.map Prod.snd ∧
      ∀ u, c.sent.filter (·.1 = u) <+: c.called.filter (·.1 = u) := by
  obtain ⟨c, hreach, hc⟩ := exists_byteRun
  simp only [Bool.and_eq_true, beq_iff_eq] at hc
  exact ⟨c, hc.2, published_in_order hreach⟩

theorem published_all_byte : ∃ c : Connection Bool UInt8, c.called = [(true, 5)] ∧
    c.published = c.sent.map Prod.snd ∧ c.peer.recvBuf = ⟨[], 0⟩ ∧
      ∀ u, c.sent.filter (·.1 = u) = c.called.filter (·.1 = u) := by
  obtain ⟨c, hreach, hc⟩ := exists_byteRun
  simp only [Bool.and_eq_true, beq_iff_eq, List.isEmpty_iff] at hc
  obtain ⟨⟨⟨⟨⟨hopen, hwrites⟩, hfalse⟩, htrue⟩, harrived⟩, hcalled⟩ := hc
  have hquiet : c.session.SendQuiet := by
    refine ⟨hwrites, ?_⟩
    intro t
    cases t
    · simp [hfalse, TcpSession.Place.sends, TcpSession.Place.owns]
    · simp [htrue, TcpSession.Place.sends, TcpSession.Place.owns]
  exact ⟨c, hcalled, (published_all hreach hopen).2 hquiet harrived⟩

end Connection

end WiseKernel.Net
