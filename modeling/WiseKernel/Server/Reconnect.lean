import WiseKernel.Lib.Runs
import WiseKernel.Server.ActorCluster

/-!
# Remotes are not forgotten

An `actor_cluster` above the network layer: connects in flight, sessions, the
messages in the channel and the requests of the timer.  Seen from one remote a
single token goes round between them.
-/

namespace WiseKernel.Lib

variable {α : Type*} {P : α → Bool} {l : List α} {k : ℕ} {x y : α}

/-- A list around one of its elements. -/
theorem filter_eq_around (h : l[k]? = some x) :
    l.filter P = (l.take k).filter P ++ (x :: l.drop (k + 1)).filter P := by
  obtain ⟨hk, rfl⟩ := List.getElem?_eq_some_iff.mp h
  rw [← List.filter_append, ← List.drop_eq_getElem_cons hk, List.take_append_drop]

theorem filter_eraseIdx_of_false (h : l[k]? = some x) (hx : P x = false) :
    (l.eraseIdx k).filter P = l.filter P := by
  rw [filter_eq_around h, List.eraseIdx_eq_take_drop_succ, List.filter_append]
  simp [hx]

/-- The only element that meets a condition, taken away. -/
theorem filter_eraseIdx_of_true (h : l[k]? = some x) (hx : P x = true) (hl : l.filter P = [y]) :
    x = y ∧ (l.eraseIdx k).filter P = [] := by
  rw [filter_eq_around h, List.filter_cons_of_pos hx] at hl
  rw [List.eraseIdx_eq_take_drop_succ, List.filter_append]
  obtain ⟨hbefore, hone⟩ | ⟨-, hnil⟩ := List.append_eq_singleton_iff.mp hl
  · obtain ⟨rfl, hafter⟩ := List.cons.inj hone
    exact ⟨rfl, by rw [hbefore, hafter]; rfl⟩
  · cases hnil

end WiseKernel.Lib

namespace WiseKernel.Server.Reconnect

open WiseKernel.Lib ActorCluster

variable {Addr : Type}

/-- `crashed` after a null pointer was followed. -/
structure World (Addr : Type) where
  cluster : ActorCluster Addr
  queue : List (Message Addr)
  /-- `async_connect` calls in flight -/
  connectors : List Addr
  /-- sessions between `begin` and the notification of `on_new_socket` -/
  opening : List (Protocol Addr)
  /-- sessions without an error -/
  live : List (Protocol Addr)
  crashed : Bool

inductive Action (Addr : Type)
  /-- a connect succeeds with a new protocol -/
  | connected (k : ℕ) (p : Protocol Addr)
  /-- `tcp_node::on_connect_failed` -/
  | failed (k : ℕ)
  /-- an acceptor has a new protocol -/
  | accepted (p : Protocol Addr)
  /-- `notify_connected` or `notify_accepted` -/
  | notify (k : ℕ)
  /-- `tcp_node::on_error` -/
  | error (k : ℕ)
  /-- a `syn_peer_up` is received -/
  | receive (k : ℕ) (domain : UInt16)
  /-- the channel posts a message -/
  | execute
  /-- the timer runs a request -/
  | fire (k : ℕ)

namespace World

/-- The addresses that are asked to be connected to. -/
def connects (calls : List (Call Addr)) : List Addr :=
  calls.filterMap fun call ↦
    match call with
    | .connect addr => some addr
    | _ => none

variable [DecidableEq Addr]

/-- `start`, once `setup` has been called. -/
def start (c : ActorCluster Addr) (rc : Bool) : World Addr where
  cluster := (c.start rc).1
  queue := []
  connectors := connects (c.start rc).2.1
  opening := []
  live := []
  crashed := false

def publish (w : World Addr) (m : Message Addr) : World Addr := { w with queue := w.queue ++ [m] }

def next (w : World Addr) : Action Addr → Option (World Addr)
  | .connected k p =>
      if k < w.connectors.length ∧ p.accepted = false then
        some { w with
          connectors := w.connectors.eraseIdx k
          opening := w.opening ++ [p]
          live := w.live ++ [p] }
      else none
  | .failed k =>
      match w.connectors[k]? with
      | none => none
      | some addr =>
          -- `notify_connect_failed` binds no protocol
          some ({ w with connectors := w.connectors.eraseIdx k }.publish
            ⟨none, .connectFailed addr⟩)
  | .accepted p =>
      if p.accepted = true then
        some { w with opening := w.opening ++ [p], live := w.live ++ [p] }
      else none
  | .notify k =>
      match w.opening[k]? with
      | none => none
      | some p =>
          some ({ w with opening := w.opening.eraseIdx k }.publish
            ⟨some p, if p.accepted then .accepted else .connected⟩)
  | .error k =>
      match w.live[k]? with
      | none => none
      | some p =>
          some ({ w with live := w.live.eraseIdx k }.publish ⟨some p, .disconnected⟩)
  | .receive k domain =>
      match w.live[k]? with
      | none => none
      | some p => some (w.publish ⟨some p, .peerUp domain⟩)
  | .execute =>
      match w.queue with
      | [] => none
      | m :: rest =>
          match w.cluster.handle m with
          | none => some { w with queue := rest, crashed := true }
          | some (c, calls) =>
              some { w with
                cluster := c, queue := rest, connectors := w.connectors ++ connects calls }
  | .fire k =>
      match w.cluster.timer[k]? with
      | none => none
      | some (_, addr) =>
          let (c, calls) :=
            { w.cluster with timer := w.cluster.timer.eraseIdx k }.reconnect addr
          some { w with cluster := c, connectors := w.connectors ++ connects calls }

/-- A step of a cluster that has not crashed. -/
def step (w : World Addr) (action : Action Addr) : Option (World Addr) :=
  if w.crashed then none else w.next action

/-! ## The token of a remote -/

/-- A message that a remote waits for. -/
def about (addr : Addr) (m : Message Addr) : Bool :=
  match m.content with
  | .accepted | .connected | .disconnected => m.protocol.map Protocol.remoteAddr = some addr
  | .connectFailed remoteAddr => remoteAddr = addr
  | .peerUp _ | .peerDown _ => false

/-- The outcome of a connect attempt. -/
def outcome (addr : Addr) (m : Message Addr) : Bool :=
  match m.content with
  | .connected => m.protocol.map Protocol.remoteAddr = some addr
  | .connectFailed remoteAddr => remoteAddr = addr
  | _ => false

/-- The connect attempts of an address whose outcome has not been handled. -/
def attempts (w : World Addr) (addr : Addr) : ℕ :=
  (w.connectors.filter (· = addr)).length +
    (w.opening.filter fun p ↦ !p.accepted && p.remoteAddr = addr).length +
    (w.queue.filter (outcome addr)).length

/-- The entries of an address in `peers_`. -/
def HasPeer (w : World Addr) (addr : Addr) (id : UInt32) : Prop :=
  ∃ q, w.cluster.peers.get? id = some q ∧ q.protocol.remoteAddr = addr

/-- The reconnect timers of an address. -/
def timers (w : World Addr) (addr : Addr) : ℕ :=
  (w.cluster.timer.filter (·.2 = addr)).length

/-- A remote is connecting, connected or disconnected. -/
structure Kept (w : World Addr) (addr : Addr) : Prop where
  state : w.cluster.remotes.get? addr = some .connecting ∨
    w.cluster.remotes.get? addr = some .connected ∨
    w.cluster.remotes.get? addr = some .disconnected
  connecting : w.cluster.remotes.get? addr = some .connecting →
    w.attempts addr = 1 ∧ (∀ id, ¬ w.HasPeer addr id) ∧ w.timers addr = 0
  connected : w.cluster.remotes.get? addr = some .connected →
    w.attempts addr = 0 ∧ (∃! id, w.HasPeer addr id) ∧ w.timers addr = 0
  disconnected : w.cluster.remotes.get? addr = some .disconnected →
    w.attempts addr = 0 ∧ (∀ id, ¬ w.HasPeer addr id) ∧ w.timers addr = 1

/-- Where the token of a remote is. -/
inductive Phase (Addr : Type)
  | dialing
  /-- connected, and not notified -/
  | opened (p : Protocol Addr)
  | announced (p : Protocol Addr)
  /-- disconnected before the notification is handled -/
  | announcedLost (p : Protocol Addr)
  | peer (p : Protocol Addr)
  /-- disconnected, which is not handled -/
  | lost (p : Protocol Addr)
  | waiting (interval : ℕ)

namespace Phase

def state : Phase Addr → RemoteState
  | .dialing | .opened _ | .announced _ | .announcedLost _ => .connecting
  | .peer _ | .lost _ => .connected
  | .waiting _ => .disconnected

def connectors (addr : Addr) : Phase Addr → List Addr
  | .dialing => [addr]
  | _ => []

def opening : Phase Addr → List (Protocol Addr)
  | .opened p => [p]
  | _ => []

def live : Phase Addr → List (Protocol Addr)
  | .opened p | .announced p | .peer p => [p]
  | _ => []

def messages : Phase Addr → List (Message Addr)
  | .announced p => [⟨some p, .connected⟩]
  | .announcedLost p => [⟨some p, .connected⟩, ⟨some p, .disconnected⟩]
  | .lost p => [⟨some p, .disconnected⟩]
  | _ => []

/-- The protocol of the entry in `peers_`. -/
def entry : Phase Addr → Option (Protocol Addr)
  | .peer p | .lost p => some p
  | _ => none

def timer (addr : Addr) : Phase Addr → List (ℕ × Addr)
  | .waiting interval => [(interval, addr)]
  | _ => []

def protocol : Phase Addr → Option (Protocol Addr)
  | .opened p | .announced p | .announcedLost p | .peer p | .lost p => some p
  | .dialing | .waiting _ => none

end Phase

/-- The token of a remote is at a place, and nowhere else. -/
structure At (w : World Addr) (addr : Addr) (φ : Phase Addr) : Prop where
  state : w.cluster.remotes.get? addr = some φ.state
  connectors : w.connectors.filter (· = addr) = φ.connectors addr
  opening : w.opening.filter (·.remoteAddr = addr) = φ.opening
  live : w.live.filter (·.remoteAddr = addr) = φ.live
  messages : w.queue.filter (about addr) = φ.messages
  entry : ∀ id, w.HasPeer addr id ↔ ∃ p, φ.entry = some p ∧ p.id = id
  timer : w.cluster.timer.filter (·.2 = addr) = φ.timer addr
  /-- The protocol is one to the remote. -/
  protocol : ∀ p, φ.protocol = some p → p.remoteAddr = addr ∧ p.accepted = false

variable {w : World Addr} {addr : Addr} {φ : Phase Addr}

theorem At.attempts_eq (h : w.At addr φ) : w.attempts addr =
    (φ.connectors addr).length + (φ.opening.filter (!·.accepted)).length +
      (φ.messages.filter (outcome addr)).length := by
  have hopening : (w.opening.filter fun p ↦ !p.accepted && p.remoteAddr = addr) =
      φ.opening.filter (!·.accepted) := by
    rw [← h.opening, List.filter_filter]
  have hqueue : w.queue.filter (outcome addr) = φ.messages.filter (outcome addr) := by
    rw [← h.messages, List.filter_filter]
    apply List.filter_congr
    intro m _
    cases hc : m.content <;> simp [outcome, about, hc]
  rw [attempts, h.connectors, hopening, hqueue]

/-- One token is what is promised of a remote. -/
theorem At.kept (h : w.At addr φ) : w.Kept addr := by
  have hattempts := h.attempts_eq
  have hentry := h.entry
  have htimer : w.timers addr = (φ.timer addr).length := by rw [timers, h.timer]
  have hstate := h.state
  have hprotocol := h.protocol
  cases φ with
  | dialing | waiting interval =>
      have hnone : ∀ id, ¬ w.HasPeer addr id := by
        intro id hid
        simpa [Phase.entry] using (hentry id).mp hid
      refine ⟨?_, ?_, ?_, ?_⟩ <;> rw [hstate] <;>
        simp [Phase.state, hattempts, htimer, hnone, Phase.connectors, Phase.opening,
          Phase.messages, Phase.timer]
  | opened p | announced p | announcedLost p =>
      have hnone : ∀ id, ¬ w.HasPeer addr id := by
        intro id hid
        simpa [Phase.entry] using (hentry id).mp hid
      obtain ⟨haddr, haccepted⟩ := hprotocol p rfl
      refine ⟨?_, ?_, ?_, ?_⟩ <;> rw [hstate] <;>
        simp [Phase.state, hattempts, htimer, hnone, Phase.connectors, Phase.opening,
          Phase.messages, Phase.timer, haccepted, outcome, haddr]
  | peer p | lost p =>
      have hone : ∃! id, w.HasPeer addr id := by
        refine ⟨p.id, (hentry p.id).mpr ⟨p, rfl, rfl⟩, fun id hid ↦ ?_⟩
        obtain ⟨q, hq, rfl⟩ := (hentry id).mp hid
        cases hq
        rfl
      refine ⟨?_, ?_, ?_, ?_⟩ <;> rw [hstate] <;>
        simp [Phase.state, hattempts, htimer, hone, Phase.connectors, Phase.opening,
          Phase.messages, Phase.timer, outcome]

/-! ## Steps -/

/-- A protocol that has not been forgotten. -/
def Present (w : World Addr) (p : Protocol Addr) : Prop :=
  p ∈ w.live ∨ p ∈ w.opening ∨ (∃ m ∈ w.queue, m.protocol = some p) ∨
    ∃ id q, w.cluster.peers.get? id = some q ∧ q.protocol = p

/-- A step that keeps the tokens: a connect succeeds, the text of the address is
that of the socket, ids are not given again, nobody else comes from the address of
a remote, and no session is lost before its notification. -/
def Keeps (w : World Addr) : Action Addr → Prop
  | .connected k p =>
      w.connectors[k]? = some p.remoteAddr ∧ ∀ q, w.Present q → q.id ≠ p.id
  | .failed _ => False
  | .accepted p =>
      w.cluster.remotes.get? p.remoteAddr = none ∧ ∀ q, w.Present q → q.id ≠ p.id
  | .error k => ∀ p, w.live[k]? = some p → p ∉ w.opening
  | _ => True

/-- The invariant of runs of such steps. -/
structure Good (w : World Addr) : Prop where
  crashed : w.crashed = false
  token : ∀ addr, (w.cluster.remotes.get? addr).isSome → ∃ φ, w.At addr φ
  keys : ∀ id q, w.cluster.peers.get? id = some q → q.protocol.id = id
  ids : ∀ p q, w.Present p → w.Present q → p.id = q.id → p = q
  bound : ∀ m ∈ w.queue, m.protocol.isSome ∧ ∀ addr, m.content ≠ .connectFailed addr

section

variable {k : ℕ} {p : Protocol Addr}

/-- A step that changes nothing of what a remote sees. -/
theorem At.congr {w' : World Addr} (h : w.At addr φ) (hcluster : w'.cluster = w.cluster)
    (hconnectors : w'.connectors.filter (· = addr) = w.connectors.filter (· = addr))
    (hopening : w'.opening.filter (·.remoteAddr = addr) = w.opening.filter (·.remoteAddr = addr))
    (hlive : w'.live.filter (·.remoteAddr = addr) = w.live.filter (·.remoteAddr = addr))
    (hqueue : w'.queue.filter (about addr) = w.queue.filter (about addr)) : w'.At addr φ := by
  refine ⟨?_, ?_, ?_, ?_, ?_, fun id ↦ ?_, ?_, h.protocol⟩
  · rw [hcluster, h.state]
  · rw [hconnectors, h.connectors]
  · rw [hopening, h.opening]
  · rw [hlive, h.live]
  · rw [hqueue, h.messages]
  · rw [HasPeer, hcluster]
    exact h.entry id
  · rw [hcluster, h.timer]

theorem At.connected (h : w.At addr φ) (hk : w.connectors[k]? = some p.remoteAddr)
    (hp : p.accepted = false) : ∃ φ, At { w with
      connectors := w.connectors.eraseIdx k, opening := w.opening ++ [p], live := w.live ++ [p] }
      addr φ := by
  by_cases ha : p.remoteAddr = addr
  · obtain rfl : φ = .dialing := by
      have hmem : addr ∈ φ.connectors addr := by
        rw [← h.connectors, List.mem_filter]
        exact ⟨ha ▸ List.mem_of_getElem? hk, by simp⟩
      cases φ with
      | dialing => rfl
      | _ => cases hmem
    have hnone := (filter_eraseIdx_of_true hk (by simpa using ha) h.connectors).2
    refine ⟨.opened p, h.state, hnone, ?_, ?_, h.messages, h.entry, h.timer, ?_⟩
    · simp [h.opening, Phase.opening, ha]
    · simp [h.live, Phase.live, ha]
    · rintro q ⟨⟩
      exact ⟨ha, hp⟩
  · refine ⟨φ, h.congr rfl ?_ ?_ ?_ rfl⟩
    · exact filter_eraseIdx_of_false hk (by simpa using ha)
    · simp [ha]
    · simp [ha]

theorem At.accepted (h : w.At addr φ) (ha : p.remoteAddr ≠ addr) :
    At { w with opening := w.opening ++ [p], live := w.live ++ [p] } addr φ :=
  h.congr rfl rfl (by simp [ha]) (by simp [ha]) rfl

theorem At.notify (h : w.At addr φ) (hk : w.opening[k]? = some p) :
    ∃ φ, At ({ w with opening := w.opening.eraseIdx k }.publish
      ⟨some p, if p.accepted then .accepted else .connected⟩) addr φ := by
  by_cases ha : p.remoteAddr = addr
  · obtain ⟨q, rfl⟩ : ∃ q, φ = .opened q := by
      have hmem : p ∈ φ.opening := by
        rw [← h.opening, List.mem_filter]
        exact ⟨List.mem_of_getElem? hk, by simpa using ha⟩
      cases φ with
      | opened q => exact ⟨q, rfl⟩
      | _ => cases hmem
    obtain ⟨rfl, hnone⟩ := filter_eraseIdx_of_true hk (by simpa using ha) h.opening
    obtain ⟨-, haccepted⟩ := h.protocol p rfl
    refine ⟨.announced p, h.state, h.connectors, hnone, h.live, ?_, h.entry, h.timer,
      h.protocol⟩
    · simp [publish, h.messages, Phase.messages, about, haccepted, ha]
  · refine ⟨φ, h.congr rfl rfl ?_ rfl ?_⟩
    · exact filter_eraseIdx_of_false hk (by simpa using ha)
    · cases hacc : p.accepted <;> simp [publish, about, ha]

theorem At.error (h : w.At addr φ) (hk : w.live[k]? = some p) (hp : p ∉ w.opening) :
    ∃ φ, At ({ w with live := w.live.eraseIdx k }.publish ⟨some p, .disconnected⟩) addr φ := by
  by_cases ha : p.remoteAddr = addr
  · have hmem : p ∈ φ.live := by
      rw [← h.live, List.mem_filter]
      exact ⟨List.mem_of_getElem? hk, by simpa using ha⟩
    have hone : φ.live = [p] := by
      cases φ with
      | opened q | announced q | peer q => rw [List.mem_singleton.mp hmem]; rfl
      | _ => cases hmem
    have hnone := (filter_eraseIdx_of_true hk (by simpa using ha) (h.live.trans hone)).2
    have hmessage : about addr ⟨some p, .disconnected⟩ = true := by simp [about, ha]
    cases φ with
    | opened q =>
        cases hone
        have hopening : p ∈ w.opening.filter (·.remoteAddr = addr) := by
          rw [h.opening]
          exact List.mem_singleton_self p
        exact absurd (List.mem_of_mem_filter hopening) hp
    | announced q =>
        cases hone
        refine ⟨.announcedLost p, h.state, h.connectors, h.opening, hnone, ?_, h.entry,
          h.timer, h.protocol⟩
        · simp [publish, h.messages, Phase.messages, hmessage]
    | peer q =>
        cases hone
        refine ⟨.lost p, h.state, h.connectors, h.opening, hnone, ?_, h.entry,
          h.timer, h.protocol⟩
        · simp [publish, h.messages, Phase.messages, hmessage]
    | _ => cases hmem
  · refine ⟨φ, h.congr rfl rfl rfl ?_ ?_⟩
    · exact filter_eraseIdx_of_false hk (by simpa using ha)
    · simp [publish, about, ha]

theorem At.receive {domain : UInt16} (h : w.At addr φ) :
    At (w.publish ⟨some p, .peerUp domain⟩) addr φ :=
  h.congr rfl rfl rfl rfl (by simp [publish, about])

theorem At.fire {interval : ℕ} {b : Addr} (h : w.At addr φ)
    (hk : w.cluster.timer[k]? = some (interval, b)) : ∃ φ,
    let r := { w.cluster with timer := w.cluster.timer.eraseIdx k }.reconnect b
    At { w with cluster := r.1, connectors := w.connectors ++ connects r.2 } addr φ := by
  by_cases hb : b = addr
  · subst hb
    obtain ⟨i, rfl⟩ : ∃ i, φ = .waiting i := by
      have hmem : (interval, b) ∈ φ.timer b := by
        rw [← h.timer, List.mem_filter]
        exact ⟨List.mem_of_getElem? hk, by simp⟩
      cases φ with
      | waiting i => exact ⟨i, rfl⟩
      | _ => cases hmem
    have hnone := (filter_eraseIdx_of_true hk (by simp) h.timer).2
    have hstate := h.state
    refine ⟨.dialing, ?_⟩
    simp only [reconnect, hstate]
    refine ⟨?_, ?_, h.opening, h.live, h.messages, h.entry, hnone, by simp [Phase.protocol]⟩
    · rw [setRemote_remotes, if_pos rfl, hstate]
      rfl
    · simp [connects, h.connectors, Phase.connectors]
  · have htimer : (w.cluster.timer.eraseIdx k).filter (·.2 = addr) = φ.timer addr := by
      rw [filter_eraseIdx_of_false hk (by simpa using hb), h.timer]
    refine ⟨φ, ?_⟩
    simp only [reconnect]
    split
    · refine ⟨h.state, ?_, h.opening, h.live, h.messages, h.entry, htimer, h.protocol⟩
      simp [connects, h.connectors]
    · refine ⟨?_, ?_, h.opening, h.live, h.messages, h.entry, htimer, h.protocol⟩
      · rw [setRemote_remotes, if_neg (Ne.symm hb)]
        exact h.state
      · simp [connects, hb, h.connectors]

/-- What a handler leaves of a remote that the message is not about. -/
structure Apart (c c' : ActorCluster Addr) (calls : List (Call Addr)) (addr : Addr) : Prop where
  state : c'.remotes.get? addr = c.remotes.get? addr
  entry : ∀ id, (∃ q, c'.peers.get? id = some q ∧ q.protocol.remoteAddr = addr) ↔
    ∃ q, c.peers.get? id = some q ∧ q.protocol.remoteAddr = addr
  timer : c'.timer.filter (·.2 = addr) = c.timer.filter (·.2 = addr)
  calls : connects calls = []

variable {c c' : ActorCluster Addr} {calls : List (Call Addr)} {content : Content Addr}

/-- A new entry of another address. -/
theorem entry_emplace (ha : p.remoteAddr ≠ addr) (id : UInt32) :
    (∃ q, (c.peers.emplace p.id ⟨p, 0⟩).get? id = some q ∧ q.protocol.remoteAddr = addr) ↔
      ∃ q, c.peers.get? id = some q ∧ q.protocol.remoteAddr = addr := by
  rw [Table.get?_emplace]
  split_ifs with hid
  · subst hid
    cases hget : c.peers.get? p.id with
    | none => simp [ha]
    | some q => simp
  · rfl

theorem Apart.of_handle (hm : about addr ⟨some p, content⟩ = false)
    (hfailed : ∀ b, content ≠ .connectFailed b)
    (hunique : ∀ q, c.peers.get? p.id = some q → q.protocol = p)
    (hhandle : c.handle ⟨some p, content⟩ = some (c', calls)) : Apart c c' calls addr := by
  cases content with
  | connectFailed b => exact absurd rfl (hfailed b)
  | peerDown domain =>
      cases hhandle
      exact ⟨rfl, fun _ ↦ Iff.rfl, rfl, rfl⟩
  | accepted =>
      have ha : p.remoteAddr ≠ addr := by simpa [about] using hm
      cases hhandle
      exact ⟨rfl, entry_emplace ha, rfl, rfl⟩
  | connected =>
      have ha : p.remoteAddr ≠ addr := by simpa [about] using hm
      simp only [handle, onConnected] at hhandle
      split at hhandle <;> cases hhandle
      · exact ⟨rfl, fun _ ↦ Iff.rfl, rfl, rfl⟩
      · refine ⟨?_, entry_emplace ha, rfl, rfl⟩
        exact setRemote_remotes.trans (if_neg (Ne.symm ha))
  | disconnected =>
      have ha : p.remoteAddr ≠ addr := by simpa [about] using hm
      have hentry : ∀ id, (∃ q, (c.peers.erase p.id).get? id = some q ∧
          q.protocol.remoteAddr = addr) ↔
          ∃ q, c.peers.get? id = some q ∧ q.protocol.remoteAddr = addr := by
        intro id
        rw [Table.get?_erase]
        split_ifs with hid
        · subst hid
          refine ⟨by simp, ?_⟩
          rintro ⟨q, hq, haddr⟩
          rw [hunique q hq] at haddr
          exact absurd haddr ha
        · rfl
      simp only [handle, onDisconnected] at hhandle
      split at hhandle <;> cases hhandle
      · exact ⟨rfl, hentry, rfl, rfl⟩
      · refine ⟨?_, hentry, ?_, rfl⟩
        · exact setRemote_remotes.trans (if_neg (Ne.symm ha))
        · simp [once, setRemote, ha]
  | peerUp domain =>
      simp only [handle, onSynPeerUp] at hhandle
      split at hhandle <;> cases hhandle
      · exact ⟨rfl, fun _ ↦ Iff.rfl, rfl, rfl⟩
      · refine ⟨rfl, fun id ↦ ?_, rfl, ?_⟩
        · rw [Table.get?_modify]
          split_ifs
          · cases c.peers.get? id <;> simp
          · rfl
        · split_ifs <;> rfl

/-- The channel posts a message. -/
theorem At.execute {rest : List (Message Addr)} (h : w.At addr φ)
    (hqueue : w.queue = ⟨some p, content⟩ :: rest) (hfailed : ∀ b, content ≠ .connectFailed b)
    (hunique : ∀ q, w.cluster.peers.get? p.id = some q → q.protocol = p)
    (hhandle : w.cluster.handle ⟨some p, content⟩ = some (c', calls)) : ∃ φ,
    At { w with cluster := c', queue := rest, connectors := w.connectors ++ connects calls }
      addr φ := by
  have hmessages := h.messages
  rw [hqueue] at hmessages
  cases hm : about addr ⟨some p, content⟩ with
  | false =>
      have hapart := Apart.of_handle hm hfailed hunique hhandle
      rw [List.filter_cons_of_neg (by simp [hm])] at hmessages
      refine ⟨φ, ?_, ?_, h.opening, h.live, hmessages, fun id ↦ ?_, ?_, h.protocol⟩
      · rw [hapart.state, h.state]
      · rw [hapart.calls, List.append_nil, h.connectors]
      · exact (hapart.entry id).trans (h.entry id)
      · rw [hapart.timer, h.timer]
  | true =>
      rw [List.filter_cons_of_pos hm] at hmessages
      have hisSome : ∀ {a}, a = addr → (w.cluster.remotes.get? a).isSome := by
        rintro a rfl
        rw [h.state]
        rfl
      -- the entry that a notification adds is the only one
      have hconnected : p.remoteAddr = addr → φ.entry = none → ∀ id,
          (∃ q, (w.cluster.peers.emplace p.id ⟨p, 0⟩).get? id = some q ∧
            q.protocol.remoteAddr = addr) ↔ ∃ q, some p = some q ∧ q.id = id := by
        intro ha hentry id
        have hnone : ∀ id, ¬ w.HasPeer addr id := by
          intro id hid
          simpa [hentry] using (h.entry id).mp hid
        have hget : w.cluster.peers.get? p.id = none := by
          refine Option.eq_none_iff_forall_ne_some.mpr fun q hq ↦ hnone p.id ⟨q, hq, ?_⟩
          rw [hunique q hq, ha]
        rw [Table.get?_emplace]
        split_ifs with hid
        · simp [hget, ha, hid]
        · refine ⟨fun hid' ↦ absurd hid' (hnone id), ?_⟩
          rintro ⟨q, ⟨⟩, hq⟩
          exact absurd hq.symm hid
      cases φ with
      | announced q =>
          obtain ⟨hhead, hnil⟩ := List.cons.inj hmessages
          cases hhead
          obtain ⟨ha, -⟩ := h.protocol p rfl
          rw [handle_connected (hisSome ha)] at hhandle
          cases hhandle
          refine ⟨.peer p, ?_, ?_, h.opening, h.live, hnil, hconnected ha rfl, h.timer, h.protocol⟩
          · exact setRemote_remotes.trans (by rw [if_pos ha.symm, h.state]; rfl)
          · simpa [connects, Phase.connectors] using h.connectors
      | announcedLost q =>
          obtain ⟨hhead, hnil⟩ := List.cons.inj hmessages
          cases hhead
          obtain ⟨ha, -⟩ := h.protocol p rfl
          rw [handle_connected (hisSome ha)] at hhandle
          cases hhandle
          refine ⟨.lost p, ?_, ?_, h.opening, h.live, hnil, hconnected ha rfl, h.timer, h.protocol⟩
          · exact setRemote_remotes.trans (by rw [if_pos ha.symm, h.state]; rfl)
          · simpa [connects, Phase.connectors] using h.connectors
      | lost q =>
          obtain ⟨hhead, hnil⟩ := List.cons.inj hmessages
          cases hhead
          obtain ⟨ha, -⟩ := h.protocol p rfl
          rw [handle_disconnected (hisSome ha)] at hhandle
          cases hhandle
          refine ⟨.waiting w.cluster.reconnectInterval, ?_, ?_, h.opening, h.live, hnil,
            fun id ↦ ?_, ?_, by simp [Phase.protocol]⟩
          · exact setRemote_remotes.trans (by rw [if_pos ha.symm, h.state]; rfl)
          · simpa [connects, Phase.connectors] using h.connectors
          · simp only [HasPeer, Table.get?_erase, Phase.entry]
            split_ifs with hid
            · simp
            · have hentry : w.HasPeer addr id ↔ ∃ x, some p = some x ∧ x.id = id := h.entry id
              refine ⟨fun hpeer ↦ ?_, by simp⟩
              obtain ⟨x, ⟨⟩, hx⟩ := hentry.mp hpeer
              exact absurd hx.symm hid
          · have htimer : w.cluster.timer.filter (·.2 = addr) = [] := h.timer
            simp [once, setRemote, htimer, ha, Phase.timer]
      | dialing | opened q | peer q | waiting interval => cases hmessages

end

/-- What a handler does to the entries of `peers_`. -/
theorem peers_of_handle {c c' : ActorCluster Addr} {m : Message Addr} {calls : List (Call Addr)}
    (h : c.handle m = some (c', calls)) {id : UInt32} {q : Peer Addr}
    (hq : c'.peers.get? id = some q) :
    (∃ q', c.peers.get? id = some q' ∧ q'.protocol = q.protocol) ∨
      m.protocol = some q.protocol ∧ q.protocol.id = id := by
  obtain ⟨protocol, content⟩ := m
  have hemplace : ∀ p : Protocol Addr, (c.peers.emplace p.id ⟨p, 0⟩).get? id = some q →
      protocol = some p → (∃ q', c.peers.get? id = some q' ∧ q'.protocol = q.protocol) ∨
        protocol = some q.protocol ∧ q.protocol.id = id := by
    rintro p hget rfl
    rw [Table.get?_emplace] at hget
    split_ifs at hget with hid
    · subst hid
      cases hold : c.peers.get? p.id with
      | some q' =>
          rw [hold] at hget
          cases hget
          exact .inl ⟨_, rfl, rfl⟩
      | none =>
          rw [hold] at hget
          cases hget
          exact .inr ⟨rfl, rfl⟩
    · exact .inl ⟨q, hget, rfl⟩
  cases content with
  | peerDown domain =>
      cases h
      exact .inl ⟨q, hq, rfl⟩
  | connectFailed b =>
      simp only [handle, onConnectFailed] at h
      split at h
      · cases h
        exact .inl ⟨q, hq, rfl⟩
      · split at h <;> cases h
        exact .inl ⟨q, hq, rfl⟩
  | accepted =>
      cases protocol <;> cases h
      exact hemplace _ hq rfl
  | connected =>
      cases protocol with
      | none => cases h
      | some p =>
          simp only [handle, onConnected] at h
          split at h <;> cases h
          · exact .inl ⟨q, hq, rfl⟩
          · exact hemplace p hq rfl
  | disconnected =>
      cases protocol with
      | none => cases h
      | some p =>
          have hget : (c.peers.erase p.id).get? id = some q := by
            simp only [handle, onDisconnected] at h
            split at h <;> cases h <;> exact hq
          rw [Table.get?_erase] at hget
          split_ifs at hget
          exact .inl ⟨q, hget, rfl⟩
  | peerUp domain =>
      cases protocol with
      | none => cases h
      | some p =>
          simp only [handle, onSynPeerUp] at h
          split at h <;> cases h
          · exact .inl ⟨q, hq, rfl⟩
          · rw [Table.get?_modify] at hq
            split_ifs at hq
            · obtain ⟨q', hq', rfl⟩ := Option.map_eq_some_iff.mp hq
              exact .inl ⟨q', hq', rfl⟩
            · exact .inl ⟨q, hq, rfl⟩

/-- No handler adds or removes a remote. -/
theorem remotes_of_handle {c c' : ActorCluster Addr} {m : Message Addr} {calls : List (Call Addr)}
    (h : c.handle m = some (c', calls)) (addr : Addr) :
    (c'.remotes.get? addr).isSome = (c.remotes.get? addr).isSome := by
  obtain ⟨protocol, content⟩ := m
  cases content with
  | peerDown domain =>
      cases h
      rfl
  | connectFailed b =>
      simp only [handle, onConnectFailed] at h
      split at h
      · cases h
        rfl
      · split at h <;> cases h
        exact isSome_setRemote
  | accepted =>
      cases protocol <;> cases h
      rfl
  | connected =>
      cases protocol with
      | none => cases h
      | some p =>
          simp only [handle, onConnected] at h
          split at h <;> cases h
          · rfl
          · exact isSome_setRemote
  | disconnected =>
      cases protocol with
      | none => cases h
      | some p =>
          simp only [handle, onDisconnected] at h
          split at h <;> cases h
          · rfl
          · exact isSome_setRemote
  | peerUp domain =>
      cases protocol with
      | none => cases h
      | some p =>
          simp only [handle, onSynPeerUp] at h
          split at h <;> cases h <;> rfl

theorem Good.step_eq (h : w.Good) (action : Action Addr) : w.step action = w.next action := by
  rw [step, h.crashed]
  exact if_neg Bool.false_ne_true

/-- A step that gives no protocol away. -/
theorem Good.of_present {w' : World Addr} (h : w.Good) (hcrashed : w'.crashed = false)
    (htoken : ∀ addr, (w'.cluster.remotes.get? addr).isSome → ∃ φ, w'.At addr φ)
    (hpresent : ∀ p, w'.Present p → w.Present p)
    (hkeys : ∀ id q, w'.cluster.peers.get? id = some q → q.protocol.id = id)
    (hbound : ∀ m ∈ w'.queue, m ∈ w.queue ∨
      m.protocol.isSome ∧ ∀ addr, m.content ≠ .connectFailed addr) : w'.Good where
  crashed := hcrashed
  token := htoken
  keys := hkeys
  ids p q hp hq := h.ids p q (hpresent p hp) (hpresent q hq)
  bound m hm := (hbound m hm).elim (h.bound m) id

/-- A new protocol. -/
theorem Good.of_new {w' : World Addr} {p : Protocol Addr} (h : w.Good)
    (hfresh : ∀ q, w.Present q → q.id ≠ p.id) (hcrashed : w'.crashed = false)
    (hcluster : w'.cluster = w.cluster) (hqueue : w'.queue = w.queue)
    (htoken : ∀ addr, (w.cluster.remotes.get? addr).isSome → ∃ φ, w'.At addr φ)
    (hpresent : ∀ q, w'.Present q → w.Present q ∨ q = p) : w'.Good where
  crashed := hcrashed
  token := by
    rw [hcluster]
    exact htoken
  keys := by
    rw [hcluster]
    exact h.keys
  ids q r hq hr hid := by
    rcases hpresent q hq with hq | rfl <;> rcases hpresent r hr with hr | rfl
    · exact h.ids q r hq hr hid
    · exact absurd hid (hfresh q hq)
    · exact absurd hid.symm (hfresh r hr)
    · rfl
  bound := by
    rw [hqueue]
    exact h.bound

theorem Good.connected {k : ℕ} {p : Protocol Addr} {w' : World Addr} (h : w.Good)
    (hok : w.Keeps (.connected k p)) (hstep : w.step (.connected k p) = some w') : w'.Good := by
  obtain ⟨hk, hfresh⟩ := hok
  rw [h.step_eq, next] at hstep
  split_ifs at hstep with hguard
  cases hstep
  refine h.of_new hfresh h.crashed rfl rfl (fun addr haddr ↦ ?_) fun q hq ↦ ?_
  · obtain ⟨φ, hat⟩ := h.token addr haddr
    exact hat.connected hk hguard.2
  · rcases hq with hlive | hopening | hrest
    · rcases List.mem_append.mp hlive with hlive | hlive
      · exact .inl (.inl hlive)
      · exact .inr (List.mem_singleton.mp hlive)
    · rcases List.mem_append.mp hopening with hopening | hopening
      · exact .inl (.inr (.inl hopening))
      · exact .inr (List.mem_singleton.mp hopening)
    · exact .inl (.inr (.inr hrest))

theorem Good.accepted {p : Protocol Addr} {w' : World Addr} (h : w.Good)
    (hok : w.Keeps (.accepted p)) (hstep : w.step (.accepted p) = some w') : w'.Good := by
  obtain ⟨hremote, hfresh⟩ := hok
  rw [h.step_eq, next] at hstep
  split_ifs at hstep
  cases hstep
  refine h.of_new hfresh h.crashed rfl rfl (fun addr haddr ↦ ?_) fun q hq ↦ ?_
  · obtain ⟨φ, hat⟩ := h.token addr haddr
    refine ⟨φ, hat.accepted ?_⟩
    rintro rfl
    rw [hremote] at haddr
    cases haddr
  · rcases hq with hlive | hopening | hrest
    · rcases List.mem_append.mp hlive with hlive | hlive
      · exact .inl (.inl hlive)
      · exact .inr (List.mem_singleton.mp hlive)
    · rcases List.mem_append.mp hopening with hopening | hopening
      · exact .inl (.inr (.inl hopening))
      · exact .inr (List.mem_singleton.mp hopening)
    · exact .inl (.inr (.inr hrest))

/-- A message about a protocol that is present. -/
theorem Good.publish {p : Protocol Addr} {w₁ : World Addr} {content : Content Addr} (h : w.Good)
    (hp : w.Present p) (hcontent : ∀ b, content ≠ .connectFailed b)
    (hcluster : w₁.cluster = w.cluster) (hqueue : w₁.queue = w.queue)
    (hcrashed : w₁.crashed = w.crashed) (hlive : ∀ q ∈ w₁.live, q ∈ w.live)
    (hopening : ∀ q ∈ w₁.opening, q ∈ w.opening)
    (htoken : ∀ addr φ, w.At addr φ → ∃ φ, (w₁.publish ⟨some p, content⟩).At addr φ) :
    (w₁.publish ⟨some p, content⟩).Good := by
  refine h.of_present (hcrashed.trans h.crashed) (fun addr haddr ↦ ?_) (fun q hq ↦ ?_) ?_ ?_
  · have haddr' : (w.cluster.remotes.get? addr).isSome := hcluster ▸ haddr
    obtain ⟨φ, hat⟩ := h.token addr haddr'
    exact htoken addr φ hat
  · rcases hq with hq | hq | ⟨m, hm, hmq⟩ | hq
    · exact .inl (hlive q hq)
    · exact .inr (.inl (hopening q hq))
    · rcases List.mem_append.mp hm with hm | hm
      · exact .inr (.inr (.inl ⟨m, hqueue ▸ hm, hmq⟩))
      · rw [List.mem_singleton.mp hm] at hmq
        cases hmq
        exact hp
    · exact .inr (.inr (.inr (hcluster ▸ hq)))
  · intro id q hq
    exact h.keys id q (hcluster ▸ hq)
  · intro m hm
    rcases List.mem_append.mp hm with hm | hm
    · exact .inl (hqueue ▸ hm)
    · rw [List.mem_singleton.mp hm]
      exact .inr ⟨rfl, hcontent⟩

theorem Good.execute {w' : World Addr} (h : w.Good) (hstep : w.step .execute = some w') :
    w'.Good := by
  rw [h.step_eq, next] at hstep
  cases hqueue : w.queue with
  | nil => simp [hqueue] at hstep
  | cons m rest =>
      obtain ⟨hbound, hfailed⟩ := h.bound m (by rw [hqueue]; exact List.mem_cons_self)
      obtain ⟨protocol, content⟩ := m
      obtain ⟨p, rfl⟩ := Option.isSome_iff_exists.mp hbound
      obtain ⟨c', calls, hhandle⟩ := w.cluster.exists_handle p content
      simp only [hqueue, hhandle, Option.some.injEq] at hstep
      subst hstep
      have hp : w.Present p := .inr (.inr (.inl ⟨_, by rw [hqueue]; exact List.mem_cons_self, rfl⟩))
      have hunique : ∀ q, w.cluster.peers.get? p.id = some q → q.protocol = p := fun q hq ↦
        h.ids _ _ (.inr (.inr (.inr ⟨p.id, q, hq, rfl⟩))) hp (h.keys p.id q hq)
      refine h.of_present h.crashed (fun addr haddr ↦ ?_) (fun q hq ↦ ?_) (fun id q hq ↦ ?_) ?_
      · have haddr' : (w.cluster.remotes.get? addr).isSome := by
          rw [← remotes_of_handle hhandle]
          exact haddr
        obtain ⟨φ, hat⟩ := h.token addr haddr'
        exact hat.execute hqueue hfailed hunique hhandle
      · rcases hq with hq | hq | ⟨m, hm, hmq⟩ | ⟨id, x, hx, rfl⟩
        · exact .inl hq
        · exact .inr (.inl hq)
        · exact .inr (.inr (.inl ⟨m, by rw [hqueue]; exact List.mem_cons_of_mem _ hm, hmq⟩))
        · rcases peers_of_handle hhandle hx with ⟨x', hx', heq⟩ | ⟨heq, -⟩
          · exact .inr (.inr (.inr ⟨id, x', hx', heq⟩))
          · cases heq
            exact hp
      · rcases peers_of_handle hhandle hq with ⟨q', hq', heq⟩ | ⟨-, hid⟩
        · rw [← heq]
          exact h.keys id q' hq'
        · exact hid
      · intro m hm
        exact .inl (by rw [hqueue]; exact List.mem_cons_of_mem _ hm)

theorem Good.fire {k : ℕ} {w' : World Addr} (h : w.Good) (hstep : w.step (.fire k) = some w') :
    w'.Good := by
  rw [h.step_eq, next] at hstep
  cases hk : w.cluster.timer[k]? with
  | none => simp [hk] at hstep
  | some x =>
      obtain ⟨interval, b⟩ := x
      simp only [hk, Option.some.injEq] at hstep
      subst hstep
      have hpeers : ({ w.cluster with timer := w.cluster.timer.eraseIdx k }.reconnect b).1.peers =
          w.cluster.peers := by
        simp only [reconnect]
        split <;> rfl
      have hremotes : ∀ addr, (({ w.cluster with
          timer := w.cluster.timer.eraseIdx k }.reconnect b).1.remotes.get? addr).isSome =
            (w.cluster.remotes.get? addr).isSome := by
        intro addr
        simp only [reconnect]
        split
        · rfl
        · exact isSome_setRemote
      refine h.of_present h.crashed (fun addr haddr ↦ ?_) (fun q hq ↦ ?_) (fun id q hq ↦ ?_)
        fun m hm ↦ .inl hm
      · rw [hremotes] at haddr
        obtain ⟨φ, hat⟩ := h.token addr haddr
        exact hat.fire hk
      · rcases hq with hq | hq | hq | ⟨id, x, hx, hxq⟩
        · exact .inl hq
        · exact .inr (.inl hq)
        · exact .inr (.inr (.inl hq))
        · rw [hpeers] at hx
          exact .inr (.inr (.inr ⟨id, x, hx, hxq⟩))
      · rw [hpeers] at hq
        exact h.keys id q hq

theorem Good.step {action : Action Addr} {w' : World Addr} (h : w.Good) (hok : w.Keeps action)
    (hstep : w.step action = some w') : w'.Good := by
  cases action with
  | connected k p => exact h.connected hok hstep
  | failed k => cases hok
  | accepted p => exact h.accepted hok hstep
  | execute => exact h.execute hstep
  | fire k => exact h.fire hstep
  | notify k =>
      rw [h.step_eq, next] at hstep
      split at hstep <;> cases hstep
      rename_i p hk
      refine h.publish (.inr (.inl (List.mem_of_getElem? hk))) ?_ rfl rfl rfl (fun _ hq ↦ hq)
        (fun _ hq ↦ List.mem_of_mem_eraseIdx hq) fun _ _ hat ↦ hat.notify hk
      intro b
      split_ifs <;> simp
  | error k =>
      rw [h.step_eq, next] at hstep
      split at hstep <;> cases hstep
      rename_i p hk
      exact h.publish (.inl (List.mem_of_getElem? hk)) (by simp) rfl rfl rfl
        (fun _ hq ↦ List.mem_of_mem_eraseIdx hq) (fun _ hq ↦ hq) fun _ _ hat ↦
        hat.error hk (hok p hk)
  | receive k domain =>
      rw [h.step_eq, next] at hstep
      split at hstep <;> cases hstep
      rename_i p hk
      exact h.publish (.inl (List.mem_of_getElem? hk)) (by simp) rfl rfl rfl (fun _ hq ↦ hq)
        (fun _ hq ↦ hq) fun _ φ hat ↦ ⟨φ, hat.receive⟩

/-- A cluster that `setup` has filled. -/
structure Setup (c : ActorCluster Addr) : Prop where
  remotes : ∀ addr st, c.remotes.get? addr = some st → st = .created
  peers : ∀ id, c.peers.get? id = none
  timer : c.timer = []

/-- The remotes of a started cluster. -/
theorem Setup.start_eq {c : ActorCluster Addr} {rc : Bool} (h : Setup c)
    (hstart : (c.start rc).2.2 = true) :
    (c.start rc).1 = { c with remotes := c.remotes.mapValues fun _ st ↦
      if st = .created then .connecting else st } ∧
    connects (c.start rc).2.1 = c.remotes.toList.map Prod.fst := by
  have hcreated : c.remotes.toList.filter (fun r ↦ r.2 = .created) = c.remotes.toList := by
    apply List.filter_eq_self.mpr
    rintro ⟨addr, st⟩ hmem
    simpa using h.remotes addr st (Table.mem_toList.mp hmem)
  have hlisten : connects (c.listenAddr.toList.map Call.listen) = [] := by
    cases c.listenAddr <;> rfl
  unfold ActorCluster.start at hstart ⊢
  split_ifs at hstart ⊢
  refine ⟨rfl, ?_⟩
  rw [hcreated, connects, List.filterMap_append]
  change connects _ ++ _ = _
  rw [hlisten, List.filterMap_map, List.nil_append]
  simp [List.filterMap_eq_map']

theorem good_start {c : ActorCluster Addr} {rc : Bool} (h : Setup c)
    (hstart : (c.start rc).2.2 = true) : (start c rc).Good := by
  obtain ⟨hcluster, hconnects⟩ := h.start_eq hstart
  have hpeers : ∀ id, (start c rc).cluster.peers.get? id = none := by
    intro id
    simp only [start, hcluster]
    exact h.peers id
  have hpresent : ∀ p, ¬ (start c rc).Present p := by
    rintro p (hp | hp | ⟨m, hm, -⟩ | ⟨id, q, hq, -⟩)
    · cases hp
    · cases hp
    · cases hm
    · rw [hpeers] at hq
      cases hq
  refine ⟨rfl, fun addr haddr ↦ ⟨.dialing, ?_⟩, fun id q hq ↦ ?_, fun p _ hp ↦ ?_, fun m hm ↦ ?_⟩
  · simp only [start, hcluster, Table.get?_mapValues, Option.isSome_map] at haddr
    obtain ⟨st, hst⟩ := Option.isSome_iff_exists.mp haddr
    have hcreated := h.remotes addr st hst
    subst hcreated
    refine ⟨?_, ?_, rfl, rfl, rfl, fun id ↦ ?_, ?_, by simp [Phase.protocol]⟩
    · simp [start, hcluster, Table.get?_mapValues, hst, Phase.state]
    · have hmem : addr ∈ c.remotes.toList.map Prod.fst :=
        List.mem_map.mpr ⟨_, Table.mem_toList.mpr hst, rfl⟩
      simp only [start, hconnects, Phase.connectors]
      rw [List.filter_eq, List.count_eq_one_of_mem c.remotes.keys_nodup hmem]
      rfl
    · simp [HasPeer, hpeers, Phase.entry]
    · simp [start, hcluster, h.timer, Phase.timer]
  · rw [hpeers] at hq
    cases hq
  · exact absurd hp (hpresent p)
  · cases hm

theorem isSome_reconnect {c : ActorCluster Addr} {b addr : Addr} :
    ((c.reconnect b).1.remotes.get? addr).isSome = (c.remotes.get? addr).isSome := by
  simp only [reconnect]
  split
  · rfl
  · exact isSome_setRemote

/-- No step adds or removes a remote. -/
theorem remotes_of_step {action : Action Addr} {w' : World Addr} (hstep : w.step action = some w')
    (addr : Addr) :
    (w'.cluster.remotes.get? addr).isSome = (w.cluster.remotes.get? addr).isSome := by
  unfold step at hstep
  split_ifs at hstep
  cases action with
  | connected k p | accepted p =>
      simp only [next] at hstep
      split_ifs at hstep
      cases hstep
      rfl
  | failed k | notify k | error k | receive k domain =>
      simp only [next] at hstep
      split at hstep <;> cases hstep
      rfl
  | execute =>
      simp only [next] at hstep
      split at hstep
      · cases hstep
      · split at hstep <;> cases hstep
        · rfl
        · rename_i hhandle
          exact remotes_of_handle hhandle addr
  | fire k =>
      simp only [next] at hstep
      split at hstep <;> cases hstep
      exact isSome_reconnect

/-- No remote is forgotten, and no null pointer is followed. -/
theorem remotes_kept (c : ActorCluster Addr) (rc : Bool) (hsetup : Setup c)
    (hstart : (c.start rc).2.2 = true) (w : World Addr)
    (h : Reaches step Keeps (start c rc) w) :
    w.crashed = false ∧ ∀ addr, (c.remotes.get? addr).isSome → w.Kept addr := by
  obtain ⟨hgood, hremotes⟩ : w.Good ∧ ∀ addr, (w.cluster.remotes.get? addr).isSome =
      ((start c rc).cluster.remotes.get? addr).isSome := by
    apply @Reaches.invariant _ _ _ _ (fun w : World Addr ↦ w.Good ∧
      ∀ addr, (w.cluster.remotes.get? addr).isSome =
        ((start c rc).cluster.remotes.get? addr).isSome) _ _ h
    · exact ⟨good_start hsetup hstart, fun _ ↦ rfl⟩
    · rintro w action w' ⟨hgood, hremotes⟩ hok hstep
      exact ⟨hgood.step hok hstep, fun addr ↦ (remotes_of_step hstep addr).trans (hremotes addr)⟩
  refine ⟨hgood.crashed, fun addr haddr ↦ ?_⟩
  have hsome : (w.cluster.remotes.get? addr).isSome := by
    rw [hremotes]
    simpa [start, (hsetup.start_eq hstart).1, Table.get?_mapValues] using haddr
  obtain ⟨φ, hat⟩ := hgood.token addr hsome
  exact hat.kept

/-- A cluster with one remote. -/
def single : ActorCluster Unit where
  listenAddr := none
  domain := 1
  reconnectInterval := 5000
  remotes := Table.empty.insert () .created
  peers := Table.empty
  timer := []

theorem setup_single : Setup single where
  remotes addr st h := by
    rw [show single.remotes.get? addr = some .created from rfl] at h
    exact (Option.some.inj h).symm
  peers _ := rfl
  timer := rfl

def checkKeeps (w : World Unit) : Action Unit → Bool
  | .connected k p =>
      k < w.connectors.length && w.live.all (·.id ≠ p.id) && w.opening.all (·.id ≠ p.id) &&
        w.queue.all (fun m ↦ m.protocol.all (·.id ≠ p.id)) &&
        w.cluster.peers.toList.all (fun q ↦ q.2.protocol.id ≠ p.id)
  | .failed _ | .accepted _ => false
  | .error k => w.opening.all (fun p ↦ w.live[k]? ≠ some p)
  | _ => true

theorem Keeps.of_check {w : World Unit} {action : Action Unit} (h : checkKeeps w action = true) :
    w.Keeps action := by
  cases action with
  | failed k | accepted p => cases h
  | notify k | receive k domain | execute | fire k => trivial
  | error k =>
      intro p hp hmem
      have hne := List.all_eq_true.mp h p hmem
      simp [hp] at hne
  | connected k p =>
      simp only [checkKeeps, Bool.and_eq_true, List.all_eq_true, decide_eq_true_eq,
        Option.all_eq_true] at h
      obtain ⟨⟨⟨⟨hk, hlive⟩, hopening⟩, hqueue⟩, hpeers⟩ := h
      refine ⟨List.getElem?_eq_getElem hk, ?_⟩
      rintro q (hq | hq | ⟨m, hm, hq⟩ | ⟨id, x, hx, rfl⟩)
      · exact hlive q hq
      · exact hopening q hq
      · exact hqueue m hm q hq
      · exact hpeers (id, x) (Table.mem_toList.mpr hx)

/-- A remote that is connected, lost and connected again. -/
def againRun : List (Action Unit) :=
  [.connected 0 ⟨1, (), false⟩, .notify 0, .execute, .error 0, .execute, .fire 0,
    .connected 0 ⟨2, (), false⟩, .notify 0, .execute]

theorem remotes_kept_single : ∃ w : World Unit, w.cluster.remotes.get? () = some .connected ∧
    w.crashed = false ∧ ∀ addr, (single.remotes.get? addr).isSome → w.Kept addr := by
  have hrun : ∃ w, Reaches step Keeps (start single true) w ∧
      decide (w.cluster.remotes.get? () = some .connected) = true :=
    exists_reaches_checked againRun checkKeeps (fun _ _ ↦ Keeps.of_check) (by decide)
  obtain ⟨w, hreach, hw⟩ := hrun
  exact ⟨w, of_decide_eq_true hw, remotes_kept single true setup_single rfl w hreach⟩

/-- The first connect that fails follows a null pointer. -/
theorem not_remotes_kept_failed : ¬ ∀ w, Reaches step (fun _ _ ↦ True) (start single true) w →
    w.crashed = false ∧ ∀ addr, (single.remotes.get? addr).isSome → w.Kept addr := by
  intro hall
  have hrun : ∃ w, Reaches step (fun _ _ ↦ True) (start single true) w ∧ w.crashed = true :=
    exists_reaches [.failed 0, .execute] (fun _ _ _ ↦ trivial) (by decide)
  obtain ⟨w, hreach, hw⟩ := hrun
  rw [(hall w hreach).1] at hw
  cases hw

end World

end WiseKernel.Server.Reconnect
