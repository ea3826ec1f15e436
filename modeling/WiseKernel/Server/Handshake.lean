import WiseKernel.Lib.Runs
import WiseKernel.Server.ActorCluster

/-!
# The handshake of two clusters

One connection between two clusters.  The accepting side speaks first, and the
connecting side answers if it has already heard of the connection.
-/

namespace WiseKernel.Server.Handshake

open WiseKernel.Lib ActorCluster

/-- The two ends of a connection. -/
inductive End
  | connecting | accepting
  deriving DecidableEq, Repr

def End.other : End → End
  | .connecting => .accepting
  | .accepting => .connecting

/-- The protocols at the two ends. -/
structure Connection (Addr : Type) where
  protocol : End → Protocol Addr
  accepted_connecting : (protocol .connecting).accepted = false
  accepted_accepting : (protocol .accepting).accepted = true

/-- A cluster with the messages in its channel and those on the way to it. -/
structure Side (Addr : Type) where
  cluster : ActorCluster Addr
  queue : List (Message Addr)
  inbox : List UInt16
  /-- `notify_connected` or `notify_accepted` was called. -/
  notified : Bool

structure Link (Addr : Type) where
  side : End → Side Addr
  up : Bool

inductive Action
  /-- `notify_connected` or `notify_accepted` -/
  | notify (e : End)
  /-- the session receives a `syn_peer_up` -/
  | deliver (e : End)
  /-- the channel posts a message -/
  | execute (e : End)
  /-- the session of an end has an error -/
  | lose (e : End)
  deriving DecidableEq, Repr

variable {Addr : Type}

/-- The notification of an end. -/
def End.notice : End → Content Addr
  | .connecting => .connected
  | .accepting => .accepted

namespace Link

def setSide (s : Link Addr) (e : End) (x : Side Addr) : Link Addr :=
  { s with side := Function.update s.side e x }

/-- A packet that the protocol of an end publishes. -/
def publish (conn : Connection Addr) (s : Link Addr) (e : End) (content : Content Addr) :
    Link Addr :=
  s.setSide e
    { s.side e with queue := (s.side e).queue ++ [⟨some (conn.protocol e), content⟩] }

/-- What is sent through the protocol arrives at the other end in order. -/
def send (conn : Connection Addr) [DecidableEq Addr] (s : Link Addr) (e : End)
    (calls : List (Call Addr)) : Link Addr :=
  let domains := calls.filterMap fun call ↦
    match call with
    | .sendPeerUp p domain => if p = conn.protocol e then some domain else none
    | _ => none
  s.setSide e.other
    { s.side e.other with inbox := (s.side e.other).inbox ++ domains }

variable [DecidableEq Addr]

def step (conn : Connection Addr) (s : Link Addr) : Action → Option (Link Addr)
  | .notify e =>
      if (s.side e).notified then none
      else some ((s.setSide e { s.side e with notified := true }).publish conn e e.notice)
  | .deliver e =>
      match (s.side e).inbox with
      | [] => none
      | domain :: rest =>
          some ((s.setSide e { s.side e with inbox := rest }).publish conn e (.peerUp domain))
  | .execute e =>
      match (s.side e).queue with
      | [] => none
      | m :: rest =>
          match (s.side e).cluster.handle m with
          | none => none
          | some (c, calls) =>
              some ((s.setSide e { s.side e with cluster := c, queue := rest }).send conn e calls)
  | .lose e => some { s.publish conn e .disconnected with up := false }

/-- Before the notifications. -/
structure Start (conn : Connection Addr) (s : Link Addr) : Prop where
  up : s.up = true
  queue : ∀ e, (s.side e).queue = []
  inbox : ∀ e, (s.side e).inbox = []
  notified : ∀ e, (s.side e).notified = false
  peers : ∀ e, (s.side e).cluster.peers.get? (conn.protocol e).id = none

/-- No notification and no message is pending. -/
structure Quiet (s : Link Addr) : Prop where
  queue : ∀ e, (s.side e).queue = []
  inbox : ∀ e, (s.side e).inbox = []
  notified : ∀ e, (s.side e).notified = true

/-- Each side knows the domain of the other. -/
def Agree (conn : Connection Addr) (s : Link Addr) : Prop :=
  ∀ e, (s.side e).cluster.peers.get? (conn.protocol e).id =
    some ⟨conn.protocol e, (s.side e.other).cluster.domain⟩

/-- The connecting side receives nothing before its notification. -/
def Ordered (s : Link Addr) (a : Action) : Prop :=
  a = .deliver .connecting → (s.side .connecting).notified = true

end Link

/-! ## Where the handshake stands -/

/-- Where the message is that the two sides pass to each other. -/
inductive Stage
  | silent
  /-- the accepting side has not handled its notification -/
  | accepted
  | toConnecting
  | atConnecting
  | toAccepting
  | atAccepting
  | done
  deriving DecidableEq, Repr

/-- What the connecting side knows of the connection. -/
inductive Known
  | nothing
  /-- its notification is in the channel -/
  | notified
  | peer
  deriving DecidableEq, Repr

namespace Stage

/-- The connecting side has answered. -/
def Answered : Stage → Prop
  | .toAccepting | .atAccepting | .done => True
  | _ => False

instance : DecidablePred Answered := fun st ↦ by
  cases st <;> unfold Answered <;> infer_instance

variable {Addr : Type} (conn : Connection Addr) (domain : End → UInt16)

def queue (st : Stage) (k : Known) : End → List (Message Addr)
  | .connecting =>
      (if k = .notified then [⟨some (conn.protocol .connecting), .connected⟩] else []) ++
        if st = .atConnecting then
          [⟨some (conn.protocol .connecting), .peerUp (domain .accepting)⟩]
        else []
  | .accepting =>
      match st with
      | .accepted => [⟨some (conn.protocol .accepting), .accepted⟩]
      | .atAccepting => [⟨some (conn.protocol .accepting), .peerUp (domain .connecting)⟩]
      | _ => []

def inbox (st : Stage) : End → List UInt16
  | .connecting => if st = .toConnecting then [domain .accepting] else []
  | .accepting => if st = .toAccepting then [domain .connecting] else []

/-- The entry of the connection in `peers_`. -/
def peer (st : Stage) (k : Known) : End → Option (Peer Addr)
  | .connecting =>
      if k = .peer then
        some ⟨conn.protocol .connecting, if st.Answered then domain .accepting else 0⟩
      else none
  | .accepting =>
      match st with
      | .silent | .accepted => none
      | .done => some ⟨conn.protocol .accepting, domain .connecting⟩
      | _ => some ⟨conn.protocol .accepting, 0⟩

def notified (st : Stage) (k : Known) : End → Bool
  | .connecting => k ≠ .nothing
  | .accepting => st ≠ .silent

end Stage

namespace Link

variable {Addr : Type} [DecidableEq Addr] {conn : Connection Addr} {domain : End → UInt16}
  {s s' : Link Addr} {st : Stage} {k : Known} {e : End}

/-- A side at a stage of the handshake. -/
structure SideAt (conn : Connection Addr) (domain : End → UInt16) (st : Stage) (k : Known) (e : End)
    (x : Side Addr) : Prop where
  queue : x.queue = st.queue conn domain k e
  inbox : x.inbox = st.inbox domain e
  peer : x.cluster.peers.get? (conn.protocol e).id = st.peer conn domain k e
  notified : x.notified = st.notified k e
  domain : x.cluster.domain = domain e
  remote : e = .connecting → (x.cluster.remotes.get? (conn.protocol e).remoteAddr).isSome

/-- The handshake is at a stage. -/
structure At (conn : Connection Addr) (domain : End → UInt16) (s : Link Addr) (st : Stage)
    (k : Known) : Prop where
  side : ∀ e, SideAt conn domain st k e (s.side e)
  /-- The connecting side receives after its notification. -/
  received : st = .atConnecting → k ≠ .nothing
  answered : st.Answered → k = .peer

/-- A step at both ends. -/
theorem At.of_sides {st' : Stage} {k' : Known}
    (hconnecting : SideAt conn domain st' k' .connecting (s'.side .connecting))
    (haccepting : SideAt conn domain st' k' .accepting (s'.side .accepting))
    (hreceived : st' = .atConnecting → k' ≠ .nothing) (hanswered : st'.Answered → k' = .peer) :
    s'.At conn domain st' k' := by
  refine ⟨fun e ↦ ?_, hreceived, hanswered⟩
  cases e with
  | connecting => exact hconnecting
  | accepting => exact haccepting

/-- A side that does not take part in a step. -/
theorem SideAt.stay {x : Side Addr} {st' : Stage} {k' : Known} (h : SideAt conn domain st k e x)
    (hqueue : st'.queue conn domain k' e = st.queue conn domain k e)
    (hinbox : st'.inbox domain e = st.inbox domain e)
    (hpeer : st'.peer conn domain k' e = st.peer conn domain k e)
    (hnotified : st'.notified k' e = st.notified k e) : SideAt conn domain st' k' e x := by
  refine ⟨?_, ?_, ?_, ?_, h.domain, h.remote⟩
  · rw [hqueue, h.queue]
  · rw [hinbox, h.inbox]
  · rw [hpeer, h.peer]
  · rw [hnotified, h.notified]

/-- A side of which only the channel, the messages on their way and the flag change. -/
theorem SideAt.pass {x y : Side Addr} {st' : Stage} {k' : Known} (h : SideAt conn domain st k e x)
    (hcluster : y.cluster = x.cluster) (hqueue : y.queue = st'.queue conn domain k' e)
    (hinbox : y.inbox = st'.inbox domain e)
    (hpeer : st'.peer conn domain k' e = st.peer conn domain k e)
    (hnotified : y.notified = st'.notified k' e) : SideAt conn domain st' k' e y := by
  refine ⟨hqueue, hinbox, ?_, hnotified, ?_, ?_⟩
  · rw [hcluster, hpeer, h.peer]
  · rw [hcluster, h.domain]
  · rw [hcluster]
    exact h.remote

theorem At.notify_connecting (h : s.At conn domain st k)
    (hstep : s.step conn (.notify .connecting) = some s') : s'.At conn domain st .notified := by
  have hside := h.side .connecting
  simp only [step, hside.notified, Stage.notified] at hstep
  split_ifs at hstep with hk
  obtain rfl : k = .nothing := by simpa using hk
  cases hstep
  have hreceived : st ≠ .atConnecting := fun hst ↦ h.received hst rfl
  have hanswered : ¬ st.Answered := fun hst ↦ nomatch h.answered hst
  refine .of_sides ?_ ?_ (fun _ ↦ by decide) (fun hst ↦ absurd hst hanswered)
  · refine hside.pass rfl ?_ hside.inbox rfl rfl
    simp [publish, setSide, hside.queue, Stage.queue, hreceived, End.notice]
  · exact (h.side .accepting).stay rfl rfl rfl rfl

theorem At.notify_accepting (h : s.At conn domain st k)
    (hstep : s.step conn (.notify .accepting) = some s') : s'.At conn domain .accepted k := by
  have hside := h.side .accepting
  simp only [step, hside.notified, Stage.notified] at hstep
  split_ifs at hstep with hst
  obtain rfl : st = .silent := by simpa using hst
  cases hstep
  refine .of_sides ?_ ?_ (by simp) (by simp [Stage.Answered])
  · exact (h.side .connecting).stay rfl rfl rfl rfl
  · refine hside.pass rfl ?_ hside.inbox rfl rfl
    simp [publish, setSide, hside.queue, Stage.queue, End.notice]

theorem At.deliver_connecting (h : s.At conn domain st k) (hk : k ≠ .nothing)
    (hstep : s.step conn (.deliver .connecting) = some s') :
    s'.At conn domain .atConnecting k := by
  have hside := h.side .connecting
  simp only [step, hside.inbox, Stage.inbox] at hstep
  split_ifs at hstep with hst
  subst hst
  cases hstep
  refine .of_sides ?_ ?_ (fun _ ↦ hk) (by simp [Stage.Answered])
  · refine hside.pass rfl ?_ rfl rfl hside.notified
    simp [publish, setSide, hside.queue, Stage.queue]
  · exact (h.side .accepting).stay rfl rfl rfl rfl

theorem At.deliver_accepting (h : s.At conn domain st k)
    (hstep : s.step conn (.deliver .accepting) = some s') :
    s'.At conn domain .atAccepting k := by
  have hside := h.side .accepting
  simp only [step, hside.inbox, Stage.inbox] at hstep
  split_ifs at hstep with hst
  subst hst
  cases hstep
  refine .of_sides ?_ ?_ (by simp) (fun _ ↦ h.answered trivial)
  · exact (h.side .connecting).stay rfl rfl rfl rfl
  · refine hside.pass rfl ?_ rfl rfl hside.notified
    simp [publish, setSide, hside.queue, Stage.queue]

/-- The first message of a channel. -/
theorem step_execute {m : Message Addr} {rest : List (Message Addr)} {c : ActorCluster Addr}
    {calls : List (Call Addr)} (hqueue : (s.side e).queue = m :: rest)
    (hhandle : (s.side e).cluster.handle m = some (c, calls)) :
    s.step conn (.execute e) =
      some ((s.setSide e { s.side e with cluster := c, queue := rest }).send conn e calls) := by
  simp only [step, hqueue, hhandle]

/-- The notification of the connecting side. -/
theorem At.execute_connected (h : s.At conn domain st .notified)
    (hstep : s.step conn (.execute .connecting) = some s') : s'.At conn domain st .peer := by
  have hside := h.side .connecting
  have hanswered : ¬ st.Answered := fun hst ↦ nomatch h.answered hst
  have hqueue := hside.queue
  simp only [Stage.queue, if_true, List.singleton_append] at hqueue
  rw [step_execute hqueue (handle_connected (hside.remote rfl))] at hstep
  cases hstep
  have hnone := hside.peer
  simp only [Stage.peer] at hnone
  refine .of_sides ⟨?_, hside.inbox, ?_, hside.notified, hside.domain, fun _ ↦ ?_⟩ ?_ (by simp)
    (fun _ ↦ rfl)
  · simp [send, setSide, End.other, Stage.queue]
  · simp [send, setSide, End.other, Table.get?_emplace, Stage.peer, hnone, hanswered]
  · simp only [send, setSide, End.other]
    simp [isSome_setRemote, hside.remote rfl]
  · refine (h.side .accepting).pass ?_ ?_ ?_ rfl ?_
    · simp [send, setSide, End.other]
    · simp [send, setSide, End.other, (h.side .accepting).queue, Stage.queue]
    · simp [send, setSide, End.other, (h.side .accepting).inbox]
    · simp [send, setSide, End.other, (h.side .accepting).notified, Stage.notified]

/-- The accepting side speaks first. -/
theorem At.execute_accepted (h : s.At conn domain .accepted k)
    (hstep : s.step conn (.execute .accepting) = some s') : s'.At conn domain .toConnecting k := by
  have hside := h.side .accepting
  rw [step_execute hside.queue handle_accepted] at hstep
  cases hstep
  have hnone := hside.peer
  simp only [Stage.peer] at hnone
  refine .of_sides ?_ ⟨?_, hside.inbox, ?_, hside.notified, hside.domain, by simp⟩ (by simp)
    (by simp [Stage.Answered])
  · refine (h.side .connecting).pass ?_ ?_ ?_ rfl ?_
    · simp [send, setSide, End.other]
    · simp [send, setSide, End.other, (h.side .connecting).queue, Stage.queue]
    · simp [send, setSide, End.other, (h.side .connecting).inbox, Stage.inbox, hside.domain]
    · simp [send, setSide, End.other, (h.side .connecting).notified, Stage.notified]
  · simp [send, setSide, End.other, Stage.queue]
  · simp [send, setSide, End.other, Table.get?_emplace, Stage.peer, hnone]

/-- The connecting side answers. -/
theorem At.execute_peerUp_connecting (h : s.At conn domain .atConnecting .peer)
    (hstep : s.step conn (.execute .connecting) = some s') :
    s'.At conn domain .toAccepting .peer := by
  have hside := h.side .connecting
  have hpeer : (s.side .connecting).cluster.peers.get? (conn.protocol .connecting).id =
      some ⟨conn.protocol .connecting, 0⟩ := hside.peer
  rw [step_execute hside.queue (handle_peerUp hpeer)] at hstep
  cases hstep
  simp only [conn.accepted_connecting]
  refine .of_sides ⟨?_, hside.inbox, ?_, hside.notified, hside.domain, hside.remote⟩ ?_ (by simp)
    (fun _ ↦ rfl)
  · simp [send, setSide, End.other, Stage.queue]
  · simp [send, setSide, End.other, Table.get?_modify, hpeer, Stage.peer, Stage.Answered]
  · refine (h.side .accepting).pass ?_ ?_ ?_ rfl ?_
    · simp [send, setSide, End.other]
    · simp [send, setSide, End.other, (h.side .accepting).queue, Stage.queue]
    · simp [send, setSide, End.other, (h.side .accepting).inbox, Stage.inbox, hside.domain]
    · simp [send, setSide, End.other, (h.side .accepting).notified, Stage.notified]

/-- The answer is heard. -/
theorem At.execute_peerUp_accepting (h : s.At conn domain .atAccepting k)
    (hstep : s.step conn (.execute .accepting) = some s') : s'.At conn domain .done k := by
  have hside := h.side .accepting
  have hpeer : (s.side .accepting).cluster.peers.get? (conn.protocol .accepting).id =
      some ⟨conn.protocol .accepting, 0⟩ := hside.peer
  have hk : k = .peer := h.answered trivial
  rw [step_execute hside.queue (handle_peerUp hpeer)] at hstep
  cases hstep
  simp only [conn.accepted_accepting]
  refine .of_sides ?_ ⟨?_, hside.inbox, ?_, hside.notified, hside.domain, by simp⟩ (by simp)
    (fun _ ↦ hk)
  · refine (h.side .connecting).pass ?_ ?_ ?_ ?_ ?_
    · simp [send, setSide, End.other]
    · simp [send, setSide, End.other, (h.side .connecting).queue, Stage.queue]
    · simp [send, setSide, End.other, (h.side .connecting).inbox, Stage.inbox]
    · simp [Stage.peer, Stage.Answered]
    · simp [send, setSide, End.other, (h.side .connecting).notified, Stage.notified]
  · simp [send, setSide, End.other, Stage.queue]
  · simp [send, setSide, End.other, Table.get?_modify, hpeer, Stage.peer]

theorem At.step {a : Action} (h : s.At conn domain st k) (hok : s.Ordered a)
    (ha : ∀ e, a ≠ .lose e) (hstep : s.step conn a = some s') :
    ∃ st' k', s'.At conn domain st' k' := by
  cases a with
  | lose e => exact absurd rfl (ha e)
  | notify e =>
      cases e with
      | connecting => exact ⟨_, _, h.notify_connecting hstep⟩
      | accepting => exact ⟨_, _, h.notify_accepting hstep⟩
  | deliver e =>
      cases e with
      | accepting => exact ⟨_, _, h.deliver_accepting hstep⟩
      | connecting =>
          have hnotified := hok rfl
          rw [(h.side .connecting).notified] at hnotified
          have hk : k ≠ .nothing := by simpa [Stage.notified] using hnotified
          exact ⟨_, _, h.deliver_connecting hk hstep⟩
  | execute e =>
      cases e with
      | connecting =>
          cases k with
          | notified => exact ⟨_, _, h.execute_connected hstep⟩
          | nothing =>
              have hst : st ≠ .atConnecting := fun hst ↦ h.received hst rfl
              have hqueue := (h.side .connecting).queue
              simp [Link.step, hqueue, Stage.queue, hst] at hstep
          | peer =>
              by_cases hst : st = .atConnecting
              · subst hst
                exact ⟨_, _, h.execute_peerUp_connecting hstep⟩
              · have hqueue := (h.side .connecting).queue
                simp [Link.step, hqueue, Stage.queue, hst] at hstep
      | accepting =>
          have hqueue := (h.side .accepting).queue
          cases st with
          | accepted => exact ⟨_, _, h.execute_accepted hstep⟩
          | atAccepting => exact ⟨_, _, h.execute_peerUp_accepting hstep⟩
          | _ => simp [Link.step, hqueue, Stage.queue] at hstep

theorem Start.at (h : s.Start conn)
    (hremote : ((s.side .connecting).cluster.remotes.get?
      (conn.protocol .connecting).remoteAddr).isSome) :
    s.At conn (fun e ↦ (s.side e).cluster.domain) .silent .nothing := by
  refine ⟨fun e ↦ ⟨?_, ?_, ?_, ?_, rfl, ?_⟩, by simp, by simp [Stage.Answered]⟩
  · rw [h.queue]
    cases e <;> rfl
  · rw [h.inbox]
    cases e <;> rfl
  · rw [h.peers]
    cases e <;> rfl
  · rw [h.notified]
    cases e <;> rfl
  · rintro rfl
    exact hremote

/-- When nothing is pending the handshake is done. -/
theorem At.agree (h : s.At conn domain st k) (hquiet : s.Quiet) : s.Agree conn := by
  have hk : k = .peer := by
    have hnotified := hquiet.notified .connecting
    have hqueue := hquiet.queue .connecting
    rw [(h.side .connecting).notified] at hnotified
    rw [(h.side .connecting).queue] at hqueue
    cases k with
    | nothing => simp [Stage.notified] at hnotified
    | notified => simp [Stage.queue] at hqueue
    | peer => rfl
  subst hk
  have hst : st = .done := by
    have hnotified := hquiet.notified .accepting
    have hqueue := hquiet.queue
    have hinbox := hquiet.inbox
    simp only [(h.side _).notified] at hnotified
    simp only [(h.side _).queue] at hqueue
    simp only [(h.side _).inbox] at hinbox
    cases st with
    | silent => simp [Stage.notified] at hnotified
    | accepted | atAccepting => simpa [Stage.queue] using hqueue .accepting
    | atConnecting => simpa [Stage.queue] using hqueue .connecting
    | toConnecting => simpa [Stage.inbox] using hinbox .connecting
    | toAccepting => simpa [Stage.inbox] using hinbox .accepting
    | done => rfl
  subst hst
  intro e
  rw [(h.side e).peer, (h.side e.other).domain]
  cases e <;> rfl

/-- A connection that is up has been up. -/
theorem up_of_step {a : Action} (hstep : s.step conn a = some s') (hup : s'.up = true) :
    s.up = true ∧ ∀ e, a ≠ .lose e := by
  cases a with
  | lose e =>
      cases hstep
      cases hup
  | notify e =>
      simp only [Link.step] at hstep
      split_ifs at hstep
      cases hstep
      exact ⟨hup, by simp⟩
  | deliver e =>
      simp only [Link.step] at hstep
      split at hstep <;> cases hstep
      exact ⟨hup, by simp⟩
  | execute e =>
      simp only [Link.step] at hstep
      split at hstep
      · cases hstep
      · split at hstep <;> cases hstep
        exact ⟨hup, by simp⟩

/-- Two clusters agree on their domains when everything has been handled, if the
connecting side knows the address and receives nothing before its notification. -/
theorem agree_of_quiet (conn : Connection Addr) (s₀ s : Link Addr) (hstart : s₀.Start conn)
    (hremote : ((s₀.side .connecting).cluster.remotes.get?
      (conn.protocol .connecting).remoteAddr).isSome)
    (h : Reaches (step conn) Ordered s₀ s) (hquiet : s.Quiet) (hup : s.up = true) :
    s.Agree conn := by
  have hat : s.up = true → ∃ st k, s.At conn (fun e ↦ (s₀.side e).cluster.domain) st k := by
    apply @Reaches.invariant _ _ _ _ (fun s : Link Addr ↦
      s.up = true → ∃ st k, s.At conn (fun e ↦ (s₀.side e).cluster.domain) st k) _ _ h
    · exact fun _ ↦ ⟨_, _, hstart.at hremote⟩
    · intro s a s' hs hok hstep hup'
      obtain ⟨hup, ha⟩ := up_of_step hstep hup'
      obtain ⟨st, k, hat⟩ := hs hup
      exact hat.step hok ha hstep
  obtain ⟨st, k, hat⟩ := hat hup
  exact hat.agree hquiet

/-- A connection from domain 1 to domain 2, by address `true` of the connecting side. -/
def pair : Connection Bool where
  protocol
    | .connecting => ⟨1, true, false⟩
    | .accepting => ⟨2, false, true⟩
  accepted_connecting := rfl
  accepted_accepting := rfl

def pairStart : Link Bool where
  side e :=
    { cluster :=
        { listenAddr := none
          domain := if e = .connecting then 1 else 2
          reconnectInterval := 5000
          remotes := if e = .connecting then Table.empty.insert true .connecting else Table.empty
          peers := Table.empty
          timer := [] }
      queue := []
      inbox := []
      notified := false }
  up := true

theorem start_pairStart : pairStart.Start pair := by
  refine ⟨rfl, fun _ ↦ rfl, fun _ ↦ rfl, fun _ ↦ rfl, fun _ ↦ rfl⟩

/-- Nothing is pending, and these are the domains that the sides know. -/
def ends (connecting accepting : Option UInt16) (s : Link Bool) : Bool :=
  [End.connecting, End.accepting].all (fun e ↦
    (s.side e).queue = [] ∧ (s.side e).inbox = [] ∧ (s.side e).notified = true) &&
    decide (s.up = true ∧ (s.side .accepting).cluster.domain = 2 ∧
      ((s.side .connecting).cluster.peers.get? 1).map Peer.domain = connecting ∧
      ((s.side .accepting).cluster.peers.get? 2).map Peer.domain = accepting)

theorem quiet_of_ends {connecting accepting : Option UInt16} {s : Link Bool}
    (h : ends connecting accepting s = true) : s.Quiet ∧ s.up = true ∧
      (s.side .accepting).cluster.domain = 2 ∧
      ((s.side .connecting).cluster.peers.get? 1).map Peer.domain = connecting ∧
      ((s.side .accepting).cluster.peers.get? 2).map Peer.domain = accepting := by
  simp only [ends, List.all_cons, List.all_nil, Bool.and_true, Bool.and_eq_true,
    decide_eq_true_eq] at h
  obtain ⟨⟨⟨hq, hi, hn⟩, ⟨hq', hi', hn'⟩⟩, hup, hdomain, hc, ha⟩ := h
  refine ⟨⟨fun e ↦ ?_, fun e ↦ ?_, fun e ↦ ?_⟩, hup, hdomain, hc, ha⟩ <;> cases e <;> assumption

/-- The message of the accepting side waits for the notification. -/
theorem agree_of_quiet_pair : ∃ s : Link Bool, s.Quiet ∧ s.Agree pair := by
  have hrun : ∃ s, Reaches (step pair) Ordered pairStart s ∧ ends (some 2) (some 1) s = true := by
    refine exists_reaches_checked [.notify .accepting, .execute .accepting, .notify .connecting,
      .deliver .connecting, .execute .connecting, .execute .connecting, .deliver .accepting,
      .execute .accepting] (fun s a ↦ a ≠ .deliver .connecting ∨ (s.side .connecting).notified)
      ?_ (by decide)
    intro s a hcheck ha
    exact (of_decide_eq_true hcheck).resolve_left (not_not_intro ha)
  obtain ⟨s, hreach, hs⟩ := hrun
  obtain ⟨hquiet, hup, -⟩ := quiet_of_ends hs
  exact ⟨s, hquiet, agree_of_quiet pair pairStart s start_pairStart rfl hreach hquiet hup⟩

/-- The message of the accepting side is received before the connecting side has
published its notification, and is lost. -/
theorem not_agree_overtaken : ¬ ∀ s, Reaches (step pair) (fun _ _ ↦ True) pairStart s →
    s.Quiet → s.up = true → s.Agree pair := by
  intro hall
  have hrun : ∃ s, Reaches (step pair) (fun _ _ ↦ True) pairStart s ∧
      ends (some 0) (some 0) s = true :=
    exists_reaches [.notify .accepting, .execute .accepting, .deliver .connecting,
      .notify .connecting, .execute .connecting, .execute .connecting] (fun _ _ _ ↦ trivial)
      (by decide)
  obtain ⟨s, hreach, hs⟩ := hrun
  obtain ⟨hquiet, hup, hdomain, hconnecting, -⟩ := quiet_of_ends hs
  have hagree := hall s hreach hquiet hup .connecting
  have hid : (pair.protocol .connecting).id = 1 := rfl
  have hother : End.connecting.other = .accepting := rfl
  rw [hid, hother, hdomain] at hagree
  rw [hagree] at hconnecting
  cases hconnecting

end Link

end WiseKernel.Server.Handshake
