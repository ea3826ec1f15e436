import WiseKernel.Lib.Table

/-!
# The actor cluster

`actor_cluster` connects to its remotes, keeps a peer for each connection and
tells every peer its domain.  Its handlers run when the channel is executed, one
message after the other.
-/

namespace WiseKernel.Server

open WiseKernel.Lib

/-- What `actor_cluster` reads of a `bits_protocol`. -/
structure Protocol (Addr : Type) where
  id : UInt32
  remoteAddr : Addr
  accepted : Bool
  deriving DecidableEq, Repr

/-- `actor_cluster::remote::state` -/
inductive RemoteState
  | created | connecting | disconnected | connected
  deriving DecidableEq, Repr

/-- `actor_cluster::peer` -/
structure Peer (Addr : Type) where
  protocol : Protocol Addr
  domain : UInt16
  deriving DecidableEq, Repr

/-- `actor_cluster`; `timer` holds the requests of `once` that have not run, with
the address that their callback is for. -/
structure ActorCluster (Addr : Type) where
  listenAddr : Option Addr
  domain : UInt16
  reconnectInterval : ℕ
  remotes : Table Addr RemoteState
  peers : Table UInt32 (Peer Addr)
  timer : List (ℕ × Addr)

namespace ActorCluster

variable {Addr : Type}

/-- The messages that `actor_cluster` subscribes to. -/
inductive Content (Addr : Type)
  | accepted
  | connected
  | connectFailed (remoteAddr : Addr)
  | disconnected
  | peerUp (domain : UInt16)
  | peerDown (domain : UInt16)
  deriving DecidableEq, Repr

/-- A packet with its `protocol_`, which is null until `packet::bind`. -/
structure Message (Addr : Type) where
  protocol : Option (Protocol Addr)
  content : Content Addr
  deriving DecidableEq, Repr

/-- What `actor_cluster` asks of the server and of a protocol. -/
inductive Call (Addr : Type)
  | listen (addr : Addr)
  | connect (addr : Addr)
  | sendPeerUp (p : Protocol Addr) (domain : UInt16)
  deriving DecidableEq, Repr

variable [DecidableEq Addr] (c : ActorCluster Addr)

def setRemote (addr : Addr) (st : RemoteState) : ActorCluster Addr :=
  { c with remotes := c.remotes.modify addr fun _ ↦ st }

/-- `get_timer().once(reconnet_interval_, ..)` -/
def once (addr : Addr) : ActorCluster Addr :=
  { c with timer := c.timer ++ [(c.reconnectInterval, addr)] }

def sendSynPeerUp (pp : Protocol Addr) : Call Addr := .sendPeerUp pp c.domain

/-- `start`; `rc` is what `server::listen` returns. -/
def start (rc : Bool) : ActorCluster Addr × List (Call Addr) × Bool :=
  let listening := c.listenAddr.toList.map Call.listen
  if c.listenAddr.isSome && !rc then (c, listening, false)
  else
    let created := c.remotes.toList.filter fun r ↦ r.2 = .created
    ({ c with remotes := c.remotes.mapValues fun _ st ↦ if st = .created then .connecting else st },
      listening ++ created.map fun r ↦ .connect r.1, true)

/-- `on_syn_peer_up`.  Handlers answer `none` where they follow a null pointer. -/
def onSynPeerUp (protocol : Option (Protocol Addr)) (domain : UInt16) :
    Option (ActorCluster Addr × List (Call Addr)) :=
  match protocol with
  | none => none
  | some p =>
      match c.peers.get? p.id with
      | none => some (c, [])
      | some peer =>
          let c' := { c with peers := c.peers.modify p.id fun q ↦ { q with domain := domain } }
          -- the connected host replies
          some (c', if peer.protocol.accepted then [] else [c.sendSynPeerUp peer.protocol])

/-- `on_connected` -/
def onConnected (protocol : Option (Protocol Addr)) :
    Option (ActorCluster Addr × List (Call Addr)) :=
  match protocol with
  | none => none
  | some bp =>
      match c.remotes.get? bp.remoteAddr with
      | none => some (c, [])
      | some _ =>
          let c := c.setRemote bp.remoteAddr .connected
          some ({ c with peers := c.peers.emplace bp.id ⟨bp, 0⟩ }, [])

/-- `on_connect_failed` -/
def onConnectFailed (protocol : Option (Protocol Addr)) (remoteAddr : Addr) :
    Option (ActorCluster Addr × List (Call Addr)) :=
  match c.remotes.get? remoteAddr with
  | none => some (c, [])
  | some _ =>
      -- `ec->get_protocol()->bind(get_channel())`
      match protocol with
      | none => none
      | some _ => some ((c.setRemote remoteAddr .disconnected).once remoteAddr, [])

/-- `on_accepted` -/
def onAccepted (protocol : Option (Protocol Addr)) :
    Option (ActorCluster Addr × List (Call Addr)) :=
  match protocol with
  | none => none
  | some bp => some ({ c with peers := c.peers.emplace bp.id ⟨bp, 0⟩ }, [c.sendSynPeerUp bp])

/-- `on_disconnected` -/
def onDisconnected (protocol : Option (Protocol Addr)) :
    Option (ActorCluster Addr × List (Call Addr)) :=
  match protocol with
  | none => none
  | some tp =>
      let c :=
        match c.remotes.get? tp.remoteAddr with
        | none => c
        | some _ => (c.setRemote tp.remoteAddr .disconnected).once tp.remoteAddr
      some ({ c with peers := c.peers.erase tp.id }, [])

/-- `reconnect`, called by the timer. -/
def reconnect (addr : Addr) : ActorCluster Addr × List (Call Addr) :=
  match c.remotes.get? addr with
  | none => (c, [])
  | some _ => (c.setRemote addr .connecting, [.connect addr])

/-- What the channel calls for a message; `on_peer_down` only logs. -/
def handle (m : Message Addr) : Option (ActorCluster Addr × List (Call Addr)) :=
  match m.content with
  | .accepted => c.onAccepted m.protocol
  | .connected => c.onConnected m.protocol
  | .connectFailed remoteAddr => c.onConnectFailed m.protocol remoteAddr
  | .disconnected => c.onDisconnected m.protocol
  | .peerUp domain => c.onSynPeerUp m.protocol domain
  | .peerDown _ => some (c, [])

section

variable {c} {addr a : Addr} {st : RemoteState} {p : Protocol Addr} {domain : UInt16}

theorem setRemote_remotes : (c.setRemote addr st).remotes.get? a =
    if a = addr then (c.remotes.get? a).map fun _ ↦ st else c.remotes.get? a :=
  Table.get?_modify

/-- No handler forgets a remote. -/
theorem isSome_setRemote :
    ((c.setRemote addr st).remotes.get? a).isSome = (c.remotes.get? a).isSome := by
  rw [setRemote_remotes]
  split_ifs
  · rw [Option.isSome_map]
  · rfl

theorem handle_connected (h : (c.remotes.get? p.remoteAddr).isSome) :
    c.handle ⟨some p, .connected⟩ = some ({ c.setRemote p.remoteAddr .connected with
      peers := c.peers.emplace p.id ⟨p, 0⟩ }, []) := by
  obtain ⟨st, hst⟩ := Option.isSome_iff_exists.mp h
  simp only [handle, onConnected, hst]
  rfl

theorem handle_accepted : c.handle ⟨some p, .accepted⟩ =
    some ({ c with peers := c.peers.emplace p.id ⟨p, 0⟩ }, [.sendPeerUp p c.domain]) := rfl

theorem handle_peerUp {q : Peer Addr} (h : c.peers.get? p.id = some q) :
    c.handle ⟨some p, .peerUp domain⟩ =
      some ({ c with peers := c.peers.modify p.id fun q ↦ { q with domain := domain } },
        if q.protocol.accepted then [] else [.sendPeerUp q.protocol c.domain]) := by
  simp only [handle, onSynPeerUp, h]
  rfl

theorem handle_disconnected (h : (c.remotes.get? p.remoteAddr).isSome) :
    c.handle ⟨some p, .disconnected⟩ =
      some ({ (c.setRemote p.remoteAddr .disconnected).once p.remoteAddr with
        peers := c.peers.erase p.id }, []) := by
  obtain ⟨st, hst⟩ := Option.isSome_iff_exists.mp h
  simp only [handle, onDisconnected, hst]
  rfl

/-- A message that is bound to a protocol does no harm. -/
theorem exists_handle (p : Protocol Addr) (content : Content Addr) :
    ∃ c' calls, c.handle ⟨some p, content⟩ = some (c', calls) := by
  cases content with
  | accepted | disconnected | peerDown domain => exact ⟨_, _, rfl⟩
  | connected =>
      simp only [handle, onConnected]
      split <;> exact ⟨_, _, rfl⟩
  | connectFailed remoteAddr =>
      simp only [handle, onConnectFailed]
      split <;> exact ⟨_, _, rfl⟩
  | peerUp domain =>
      simp only [handle, onSynPeerUp]
      split <;> exact ⟨_, _, rfl⟩

end

end ActorCluster

end WiseKernel.Server
