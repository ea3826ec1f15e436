import Mathlib.Algebra.Group.Nat.Defs
import Mathlib.Data.List.Perm.Basic
import WiseKernel.Core.IdPool
import WiseKernel.Net.SlotVector

/-!
# Connections of a node

`tcp_node`: `listen` and `connect` take a number from `seq_` for the acceptor or the connector,
an accepted or connected socket becomes a protocol object with an id of `protocols_`, and what
happens to it is told to its channel.  Every handler runs on any thread; what a lock protects is
one step.
-/

namespace WiseKernel.Net

open WiseKernel.Core WiseKernel.Lib

namespace TcpNodeRun

/-- Where `on_new_socket` is with a protocol object, and `on_connected` after it. -/
inductive Place where
  | made
  | added
  | begun
  | told
  | ended
  deriving DecidableEq, Repr

/-- The object before it has an id, with it, in `on_error` after `del`, and after
`notify_disconnect`. -/
inductive Life where
  | unset
  | live
  | closing
  | closed
  deriving DecidableEq, Repr

/-- A protocol object, with the number of its connector if it was not accepted. -/
structure Obj where
  key : Option (BitVec 16)
  place : Place
  id : UInt32
  life : Life
  deriving DecidableEq, Repr

/-- What the virtual `notify_` functions are called with. -/
inductive Announcement where
  | accepted (i : ℕ)
  | connected (i : ℕ)
  | connectFailed (k : BitVec 16)
  | disconnected (i : ℕ)
  deriving DecidableEq, Repr

end TcpNodeRun

open TcpNodeRun in
/-- `tcp_node`, with the connects under way, all its protocol objects, what was told of them, and
how many calls of `listen` and `connect` got a number. -/
structure TcpNodeRun where
  seq : WordSequence 16
  acceptors : List (BitVec 16)
  connectors : List (BitVec 16)
  protocols : SlotVector.History ℕ
  connecting : List (BitVec 16)
  objs : List Obj
  notices : List Announcement
  listened : ℕ
  dialed : ℕ

namespace TcpNodeRun

/-- `slot_vector<protocol>` has the default limit. -/
def maxSlot : ℕ := 65535

/-- The constructor: `seq_(1, UINT16_MAX)`. -/
def make (reserve : BitVec 16) : TcpNodeRun where
  seq := .make 1 0xFFFF reserve (by decide)
  acceptors := []
  connectors := []
  protocols := .initial
  connecting := []
  objs := []
  notices := []
  listened := 0
  dialed := 0

/-- `listen`, which throws without a number; the acceptor stays also when it cannot listen. -/
def listen (w : TcpNodeRun) : TcpNodeRun :=
  match w.seq.next with
  | (.error _, seq) => { w with seq := seq }
  | (.ok id, seq) =>
      { w with seq := seq, acceptors := w.acceptors.insert id, listened := w.listened + 1 }

/-- `connect`, which throws without a number. -/
def connect (w : TcpNodeRun) : TcpNodeRun :=
  match w.seq.next with
  | (.error _, seq) => { w with seq := seq }
  | (.ok id, seq) =>
      { w with
        seq := seq
        connectors := w.connectors.insert id
        connecting := w.connecting ++ [id]
        dialed := w.dialed + 1 }

/-- `on_new_socket`, up to `create_protocol`. -/
def onNewSocket (w : TcpNodeRun) (key : Option (BitVec 16)) : TcpNodeRun :=
  { w with objs := w.objs ++ [⟨key, .made, 0, .unset⟩] }

/-- `on_accepted`, which closes the socket of an unknown acceptor. -/
def onAccepted (w : TcpNodeRun) (k : BitVec 16) : TcpNodeRun :=
  if k ∈ w.acceptors then w.onNewSocket none else w

/-- `on_connected`, up to `on_new_socket`. -/
def onConnected (w : TcpNodeRun) (k : BitVec 16) : Option TcpNodeRun :=
  if k ∈ w.connecting then
    if k ∈ w.connectors then
      some (({ w with connecting := w.connecting.erase k } : TcpNodeRun).onNewSocket (some k))
    else some { w with connecting := w.connecting.erase k }
  else none

/-- `on_connect_failed`. -/
def onConnectFailed (w : TcpNodeRun) (k : BitVec 16) : Option TcpNodeRun :=
  if k ∈ w.connecting then
    some { w with
      connecting := w.connecting.erase k
      notices := if k ∈ w.connectors then w.notices ++ [.connectFailed k] else w.notices
      seq := w.seq.release k
      connectors := w.connectors.erase k }
  else none

/-- The end of `on_connected`: the connector is gone. -/
def release (w : TcpNodeRun) : Option (BitVec 16) → TcpNodeRun
  | none => w
  | some k => { w with seq := w.seq.release k, connectors := w.connectors.erase k }

/-- The next step of `on_new_socket` with the object `i`; without a slot `add` throws, which
nothing catches. -/
def handle (w : TcpNodeRun) (i : ℕ) : Option TcpNodeRun :=
  match w.objs[i]? with
  | none => none
  | some o =>
      match o.place with
      | .made =>
          match w.protocols.vec.add maxSlot i with
          | (.error _, _) => none
          | (.ok id, _) =>
              some { w with
                protocols := w.protocols.step maxSlot (.add i)
                objs := w.objs.set i { o with place := .added, id := id, life := .live } }
      | .added => some { w with objs := w.objs.set i { o with place := .begun } }
      | .begun =>
          some { w with
            objs := w.objs.set i { o with place := .told }
            notices := w.notices ++ [if o.key.isSome then .connected i else .accepted i] }
      | .told =>
          some (({ w with
            objs := w.objs.set i { o with place := .ended } } : TcpNodeRun).release o.key)
      | .ended => none

/-- `on_error` of an object, which its session calls once; up to `del`. -/
def onError (w : TcpNodeRun) (i : ℕ) : Option TcpNodeRun :=
  match w.objs[i]? with
  | none => none
  | some o =>
      if o.life = .live then
        some { w with
          protocols := w.protocols.step maxSlot (.del o.id)
          objs := w.objs.set i { o with life := .closing } }
      else none

/-- The rest of `on_error`. -/
def notifyDisconnect (w : TcpNodeRun) (i : ℕ) : Option TcpNodeRun :=
  match w.objs[i]? with
  | none => none
  | some o =>
      if o.life = .closing then
        some { w with
          objs := w.objs.set i { o with life := .closed }
          notices := w.notices ++ [.disconnected i] }
      else none

inductive Action where
  | listen
  | connect
  | accepted (k : BitVec 16)
  | connected (k : BitVec 16)
  | connectFailed (k : BitVec 16)
  | handle (i : ℕ)
  | error (i : ℕ)
  | disconnect (i : ℕ)
  deriving DecidableEq, Repr

def step (w : TcpNodeRun) : Action → Option TcpNodeRun
  | .listen => some w.listen
  | .connect => some w.connect
  | .accepted k => some (w.onAccepted k)
  | .connected k => w.onConnected k
  | .connectFailed k => w.onConnectFailed k
  | .handle i => w.handle i
  | .error i => w.onError i
  | .disconnect i => w.notifyDisconnect i

/-- What a step can do. -/
inductive Moves (w : TcpNodeRun) : Action → TcpNodeRun → Prop where
  | exhausted {a : Action} {e : Sequence.Error} (he : w.seq.next.1 = .error e) :
      Moves w a { w with seq := w.seq.next.2 }
  | listen {id : BitVec 16} (hid : w.seq.next.1 = .ok id) :
      Moves w .listen { w with
        seq := w.seq.next.2, acceptors := w.acceptors.insert id, listened := w.listened + 1 }
  | connect {id : BitVec 16} (hid : w.seq.next.1 = .ok id) :
      Moves w .connect { w with
        seq := w.seq.next.2
        connectors := w.connectors.insert id
        connecting := w.connecting ++ [id]
        dialed := w.dialed + 1 }
  | refused {k : BitVec 16} : Moves w (.accepted k) w
  | accepted {k : BitVec 16} : Moves w (.accepted k) (w.onNewSocket none)
  | connected {k : BitVec 16} (hk : k ∈ w.connecting) (hfound : k ∈ w.connectors) :
      Moves w (.connected k)
        (({ w with connecting := w.connecting.erase k } : TcpNodeRun).onNewSocket (some k))
  | unknown {k : BitVec 16} (hk : k ∈ w.connecting) (hfound : k ∉ w.connectors) :
      Moves w (.connected k) { w with connecting := w.connecting.erase k }
  | connectFailed {k : BitVec 16} (hk : k ∈ w.connecting) :
      Moves w (.connectFailed k) { w with
        connecting := w.connecting.erase k
        notices := if k ∈ w.connectors then w.notices ++ [.connectFailed k] else w.notices
        seq := w.seq.release k
        connectors := w.connectors.erase k }
  | added {i : ℕ} {o : Obj} {id : UInt32} {vec : SlotVector ℕ} (ho : w.objs[i]? = some o)
      (hplace : o.place = .made) (hadd : w.protocols.vec.add maxSlot i = (.ok id, vec)) :
      Moves w (.handle i) { w with
        protocols := w.protocols.step maxSlot (.add i)
        objs := w.objs.set i { o with place := .added, id := id, life := .live } }
  | begun {i : ℕ} {o : Obj} (ho : w.objs[i]? = some o) (hplace : o.place = .added) :
      Moves w (.handle i) { w with objs := w.objs.set i { o with place := .begun } }
  | told {i : ℕ} {o : Obj} (ho : w.objs[i]? = some o) (hplace : o.place = .begun) :
      Moves w (.handle i) { w with
        objs := w.objs.set i { o with place := .told }
        notices := w.notices ++ [if o.key.isSome then .connected i else .accepted i] }
  | ended {i : ℕ} {o : Obj} (ho : w.objs[i]? = some o) (hplace : o.place = .told) :
      Moves w (.handle i)
        (({ w with objs := w.objs.set i { o with place := .ended } } : TcpNodeRun).release o.key)
  | error {i : ℕ} {o : Obj} (ho : w.objs[i]? = some o) (hlife : o.life = .live) :
      Moves w (.error i) { w with
        protocols := w.protocols.step maxSlot (.del o.id)
        objs := w.objs.set i { o with life := .closing } }
  | disconnect {i : ℕ} {o : Obj} (ho : w.objs[i]? = some o) (hlife : o.life = .closing) :
      Moves w (.disconnect i) { w with
        objs := w.objs.set i { o with life := .closed }
        notices := w.notices ++ [.disconnected i] }

section

variable {w w' : TcpNodeRun} {a : Action} {i j : ℕ} {o o' : Obj} {k : BitVec 16}

theorem listen_moves : Moves w .listen w.listen := by
  rw [TcpNodeRun.listen]
  cases hnext : w.seq.next with
  | mk answer seq =>
      cases answer with
      | error e =>
          have hmoves := @Moves.exhausted w .listen e (by rw [hnext])
          rwa [hnext] at hmoves
      | ok id =>
          have hmoves := @Moves.listen w id (by rw [hnext])
          rwa [hnext] at hmoves

theorem connect_moves : Moves w .connect w.connect := by
  rw [TcpNodeRun.connect]
  cases hnext : w.seq.next with
  | mk answer seq =>
      cases answer with
      | error e =>
          have hmoves := @Moves.exhausted w .connect e (by rw [hnext])
          rwa [hnext] at hmoves
      | ok id =>
          have hmoves := @Moves.connect w id (by rw [hnext])
          rwa [hnext] at hmoves

theorem onConnected_moves (h : w.onConnected k = some w') : Moves w (.connected k) w' := by
  rw [onConnected] at h
  split_ifs at h with hk hfound <;> cases h
  · exact .connected hk hfound
  · exact .unknown hk hfound

theorem handle_moves (h : w.handle i = some w') : Moves w (.handle i) w' := by
  rw [handle] at h
  cases ho : w.objs[i]? with
  | none => simp [ho] at h
  | some o =>
      simp only [ho] at h
      cases hplace : o.place with
      | made =>
          simp only [hplace] at h
          rcases hadd : w.protocols.vec.add maxSlot i with ⟨_ | id, vec⟩
          · simp [hadd] at h
          · simp only [hadd, Option.some.injEq] at h
            exact h ▸ .added ho hplace hadd
      | added =>
          simp only [hplace, Option.some.injEq] at h
          exact h ▸ .begun ho hplace
      | begun =>
          simp only [hplace, Option.some.injEq] at h
          exact h ▸ .told ho hplace
      | told =>
          simp only [hplace, Option.some.injEq] at h
          exact h ▸ .ended ho hplace
      | ended => simp [hplace] at h

theorem onError_moves (h : w.onError i = some w') : Moves w (.error i) w' := by
  rw [onError] at h
  cases ho : w.objs[i]? with
  | none => simp [ho] at h
  | some o =>
      simp only [ho] at h
      split_ifs at h with hlife
      cases h
      exact .error ho hlife

theorem notifyDisconnect_moves (h : w.notifyDisconnect i = some w') :
    Moves w (.disconnect i) w' := by
  rw [notifyDisconnect] at h
  cases ho : w.objs[i]? with
  | none => simp [ho] at h
  | some o =>
      simp only [ho] at h
      split_ifs at h with hlife
      cases h
      exact .disconnect ho hlife

theorem step_moves (h : w.step a = some w') : Moves w a w' := by
  cases a with
  | listen =>
      cases h
      exact listen_moves
  | connect =>
      cases h
      exact connect_moves
  | accepted k =>
      cases h
      rw [onAccepted]
      split_ifs
      · exact .accepted
      · exact .refused
  | connected k => exact onConnected_moves h
  | connectFailed k =>
      rw [step, onConnectFailed] at h
      by_cases hk : k ∈ w.connecting
      · rw [if_pos hk, Option.some.injEq] at h
        exact h ▸ .connectFailed hk
      · rw [if_neg hk] at h
        cases h
  | handle i => exact handle_moves h
  | error i => exact onError_moves h
  | disconnect i => exact notifyDisconnect_moves h

/-! ## Numbers -/

/-- The connector that an object still holds. -/
def Obj.holds (o : Obj) : Option (BitVec 16) := if o.place = .ended then none else o.key

/-- The numbers in use: one for each acceptor and one for each connect under way, until its
handler ends. -/
structure Numbers (w : TcpNodeRun) : Prop where
  low : w.seq.low = 1
  high : w.seq.high = 0xFFFF
  accounts : w.seq.Accounts (w.acceptors ++ w.connectors)
  acceptors : w.acceptors.length = w.listened
  connectors : w.connectors.Perm (w.connecting ++ w.objs.filterMap Obj.holds)

theorem accounts_perm {q : WordSequence 16} {out out' : List (BitVec 16)} (h : q.Accounts out)
    (hperm : out'.Perm out) : q.Accounts out' :=
  ⟨h.start, h.bound, h.loans.perm (hperm.map _)⟩

theorem next_low_high (q : WordSequence 16) :
    q.next.2.low = q.low ∧ q.next.2.high = q.high := by
  obtain ⟨hlow, hhigh⟩ := q.filled.low_high_take
  obtain ⟨hlow', hhigh'⟩ := q.filled_low_high
  exact ⟨hlow.trans hlow', hhigh.trans hhigh'⟩

theorem release_low_high (q : WordSequence 16) (n : BitVec 16) :
    (q.release n).low = q.low ∧ (q.release n).high = q.high := by
  rw [WordSequence.release]
  split_ifs <;> exact ⟨rfl, rfl⟩

/-- A number of `next` is new. -/
theorem Numbers.next (h : Numbers w) {id : BitVec 16} (hid : w.seq.next.1 = .ok id) :
    id ∉ w.acceptors ++ w.connectors ∧
      w.seq.next.2.Accounts (id :: (w.acceptors ++ w.connectors)) := by
  rcases h.accounts.next with ⟨n, hn, -, -, hnew, haccounts, -⟩ | ⟨⟨e, he⟩, -⟩
  · rw [hn] at hid
    cases hid
    exact ⟨hnew, haccounts⟩
  · rw [he] at hid
    cases hid

theorem Numbers.exhausted (h : Numbers w) {e : Sequence.Error} (he : w.seq.next.1 = .error e) :
    w.seq.next.2 = w.seq := by
  rcases h.accounts.next with ⟨n, hn, -⟩ | ⟨⟨e', he'⟩, -⟩
  · rw [hn] at he
    cases he
  · rw [he']

/-- A connector gives its number back. -/
theorem Numbers.release (h : Numbers w) (hk : k ∈ w.connectors) :
    (w.seq.release k).Accounts (w.acceptors ++ w.connectors.erase k) := by
  have hnodup : (w.acceptors ++ w.connectors).Nodup := h.accounts.loans.lent_nodup.of_map _
  have hnot : k ∉ w.acceptors := fun hmem ↦ (List.nodup_append.mp hnodup).2.2 k hmem k hk rfl
  have haccounts := h.accounts.release (List.mem_append_right w.acceptors hk)
  rwa [List.erase_append_right _ hnot] at haccounts

theorem filterMap_set_of_eq {α β : Type} {f : α → Option β} {l : List α} {x y : α}
    (hi : l[i]? = some x) (hf : f y = f x) : (l.set i y).filterMap f = l.filterMap f := by
  obtain ⟨hlt, rfl⟩ := List.getElem?_eq_some_iff.mp hi
  conv_rhs => rw [← List.set_getElem_self hlt]
  simp only [List.set_eq_take_append_cons_drop, if_pos hlt, List.filterMap_append,
    List.filterMap_cons, hf]

theorem filterMap_set_of_none {α β : Type} {f : α → Option β} {l : List α} {x y : α} {b : β}
    (hi : l[i]? = some x) (hx : f x = some b) (hy : f y = none) :
    (l.filterMap f).Perm (b :: (l.set i y).filterMap f) := by
  obtain ⟨hlt, rfl⟩ := List.getElem?_eq_some_iff.mp hi
  conv_lhs => rw [← List.set_getElem_self hlt]
  simp only [List.set_eq_take_append_cons_drop, if_pos hlt, List.filterMap_append,
    List.filterMap_cons, hx, hy]
  exact List.perm_middle

theorem Numbers.set (h : Numbers w) (ho : w.objs[i]? = some o) (hholds : o'.holds = o.holds)
    (hseq : w'.seq = w.seq) (hacceptors : w'.acceptors = w.acceptors)
    (hconnectors : w'.connectors = w.connectors) (hconnecting : w'.connecting = w.connecting)
    (hlistened : w'.listened = w.listened) (hobjs : w'.objs = w.objs.set i o') : Numbers w' := by
  refine ⟨hseq ▸ h.low, hseq ▸ h.high, ?_, ?_, ?_⟩
  · rw [hseq, hacceptors, hconnectors]
    exact h.accounts
  · rw [hacceptors, hlistened]
    exact h.acceptors
  · rw [hconnectors, hconnecting, hobjs, filterMap_set_of_eq ho hholds]
    exact h.connectors

theorem Numbers.moves (h : Numbers w) (hmoves : Moves w a w') : Numbers w' := by
  have hnext := next_low_high w.seq
  cases hmoves with
  | exhausted he =>
      rw [h.exhausted he]
      exact h
  | @listen id hid =>
      obtain ⟨hnew, haccounts⟩ := h.next hid
      have hnot : id ∉ w.acceptors := fun hmem ↦ hnew (List.mem_append_left _ hmem)
      refine ⟨hnext.1.trans h.low, hnext.2.trans h.high, ?_, ?_, h.connectors⟩
      · simp only [List.insert_of_not_mem hnot]
        exact haccounts
      · rw [List.insert_of_not_mem hnot, List.length_cons, h.acceptors]
  | @connect id hid =>
      obtain ⟨hnew, haccounts⟩ := h.next hid
      have hnot : id ∉ w.connectors := fun hmem ↦ hnew (List.mem_append_right _ hmem)
      refine ⟨hnext.1.trans h.low, hnext.2.trans h.high, ?_, h.acceptors, ?_⟩
      · simp only [List.insert_of_not_mem hnot]
        exact accounts_perm haccounts List.perm_middle
      · simp only [List.insert_of_not_mem hnot, List.append_assoc, List.singleton_append]
        exact (h.connectors.cons id).trans List.perm_middle.symm
  | refused => exact h
  | accepted =>
      refine ⟨h.low, h.high, h.accounts, h.acceptors, ?_⟩
      simpa [onNewSocket, Obj.holds] using h.connectors
  | @connected k hk hfound =>
      refine ⟨h.low, h.high, h.accounts, h.acceptors, ?_⟩
      have hnew : (w.objs ++ [(⟨some k, .made, 0, .unset⟩ : Obj)]).filterMap Obj.holds =
          w.objs.filterMap Obj.holds ++ [k] := by
        simp [Obj.holds]
      simp only [onNewSocket, hnew]
      refine h.connectors.trans (((List.perm_cons_erase hk).append_right _).trans ?_)
      rw [List.cons_append, ← List.append_assoc]
      exact (List.perm_append_singleton _ _).symm
  | unknown hk hfound =>
      exact absurd (h.connectors.mem_iff.mpr (List.mem_append_left _ hk)) hfound
  | @connectFailed k hk =>
      have hfound := h.connectors.mem_iff.mpr (List.mem_append_left _ hk)
      obtain ⟨hlow, hhigh⟩ := release_low_high w.seq k
      refine ⟨hlow.trans h.low, hhigh.trans h.high, h.release hfound, h.acceptors, ?_⟩
      refine List.Perm.cons_inv (a := k) ?_
      refine (List.perm_cons_erase hfound).symm.trans (h.connectors.trans ?_)
      exact (List.perm_cons_erase hk).append_right _
  | added ho hplace => exact h.set ho (by simp [Obj.holds, hplace]) rfl rfl rfl rfl rfl rfl
  | begun ho hplace => exact h.set ho (by simp [Obj.holds, hplace]) rfl rfl rfl rfl rfl rfl
  | told ho hplace => exact h.set ho (by simp [Obj.holds, hplace]) rfl rfl rfl rfl rfl rfl
  | @ended i o ho hplace =>
      cases hkey : o.key with
      | none => exact h.set ho (by simp [Obj.holds, hkey]) rfl rfl rfl rfl rfl rfl
      | some k =>
          have hheld : o.holds = some k := by simp [Obj.holds, hplace, hkey]
          have hperm := @filterMap_set_of_none i _ _ Obj.holds w.objs o
            ⟨some k, .ended, o.id, o.life⟩ k ho hheld (by simp [Obj.holds])
          have hfound : k ∈ w.connectors := by
            refine h.connectors.mem_iff.mpr (List.mem_append_right _ ?_)
            exact hperm.mem_iff.mpr List.mem_cons_self
          obtain ⟨hlow, hhigh⟩ := release_low_high w.seq k
          refine ⟨hlow.trans h.low, hhigh.trans h.high, h.release hfound, h.acceptors, ?_⟩
          refine List.Perm.cons_inv (a := k) ?_
          refine (List.perm_cons_erase hfound).symm.trans (h.connectors.trans ?_)
          exact (hperm.append_left _).trans List.perm_middle
  | error ho => exact h.set ho (by rfl) rfl rfl rfl rfl rfl rfl
  | disconnect ho => exact h.set ho (by rfl) rfl rfl rfl rfl rfl rfl

/-! ## Notices -/

/-- The notice of a new connection, of its object. -/
def Announcement.opens (i : ℕ) : Announcement → Bool
  | .accepted j => j = i
  | .connected j => j = i
  | _ => false

/-- The answer to a connect. -/
def Announcement.answers : Announcement → Bool
  | .connected _ => true
  | .connectFailed _ => true
  | _ => false

def Obj.isTold (o : Obj) : Bool := o.place = .told || o.place = .ended

/-- The object comes from a connect that has not been answered. -/
def Obj.waits (o : Obj) : Bool := o.key.isSome && !o.isTold

/-- Every object is announced once, its end is told once, and every connect is under way or has
been answered once. -/
structure Notices (w : TcpNodeRun) : Prop where
  opened : ∀ i, w.notices.countP (Announcement.opens i) = (w.objs[i]?.any Obj.isTold).toNat
  closed : ∀ i, w.notices.count (.disconnected i) = (w.objs[i]?.any (·.life = .closed)).toNat
  dialed : w.dialed =
    w.connecting.length + w.objs.countP Obj.waits + w.notices.countP Announcement.answers
  made : ∀ o ∈ w.objs, o.place = .made → o.life = .unset

theorem any_set {p : Obj → Bool} (ho : w.objs[i]? = some o) (j : ℕ) :
    (w.objs.set i o')[j]?.any p = if i = j then p o' else w.objs[j]?.any p := by
  obtain ⟨hlt, -⟩ := List.getElem?_eq_some_iff.mp ho
  rw [List.getElem?_set]
  split_ifs <;> rfl

theorem any_set_same {p : Obj → Bool} (ho : w.objs[i]? = some o) (hp : p o' = p o) (j : ℕ) :
    (w.objs.set i o')[j]?.any p = w.objs[j]?.any p := by
  rw [any_set ho]
  split_ifs with hij
  · rw [← hij, ho, Option.any_some, hp]
  · rfl

theorem any_append {p : Obj → Bool} {objs : List Obj} (hp : p o = false) (j : ℕ) :
    (objs ++ [o])[j]?.any p = objs[j]?.any p := by
  rcases Nat.lt_trichotomy j objs.length with hlt | rfl | hgt
  · rw [List.getElem?_append_left hlt]
  · simp [hp]
  · rw [List.getElem?_eq_none (by simp; omega), List.getElem?_eq_none (by omega)]

theorem countP_set_same {p : Obj → Bool} (ho : w.objs[i]? = some o) (hp : p o' = p o) :
    (w.objs.set i o').countP p = w.objs.countP p := by
  obtain ⟨hlt, hget⟩ := List.getElem?_eq_some_iff.mp ho
  rw [List.countP_set hlt, hget, hp]
  have hpos : p o = true → 0 < w.objs.countP p := fun h ↦
    List.countP_pos_iff.mpr ⟨o, List.mem_of_getElem? ho, h⟩
  split_ifs with h
  · exact Nat.sub_add_cancel (hpos h)
  · rfl

/-- One object fewer is counted. -/
theorem countP_set_drop {p : Obj → Bool} (ho : w.objs[i]? = some o) (hp : p o = true)
    (hp' : p o' = false) : (w.objs.set i o').countP p + 1 = w.objs.countP p := by
  obtain ⟨hlt, hget⟩ := List.getElem?_eq_some_iff.mp ho
  rw [List.countP_set hlt, hget, hp, hp']
  exact Nat.sub_add_cancel (List.countP_pos_iff.mpr ⟨o, List.mem_of_getElem? ho, hp⟩)

/-- One object more is counted. -/
theorem countP_set_add {p : Obj → Bool} (ho : w.objs[i]? = some o) (hp : p o = false)
    (hp' : p o' = true) : (w.objs.set i o').countP p = w.objs.countP p + 1 := by
  obtain ⟨hlt, hget⟩ := List.getElem?_eq_some_iff.mp ho
  rw [List.countP_set hlt, hget, hp, hp']
  rfl

theorem made_set {objs : List Obj} (h : ∀ o ∈ objs, o.place = .made → o.life = .unset)
    (hmade : o'.place = .made → o'.life = .unset) :
    ∀ o ∈ objs.set i o', o.place = .made → o.life = .unset := by
  intro o ho
  rcases List.mem_or_eq_of_mem_set ho with hold | rfl
  · exact h o hold
  · exact hmade

/-- A step of an object that tells nothing. -/
theorem Notices.set (h : Notices w) (ho : w.objs[i]? = some o) (htold : o'.isTold = o.isTold)
    (hclosed : o'.life = .closed ↔ o.life = .closed) (hkey : o'.key = o.key)
    (hmade : o'.place = .made → o'.life = .unset)
    (hnotices : w'.notices = w.notices) (hconnecting : w'.connecting = w.connecting)
    (hdialed : w'.dialed = w.dialed) (hobjs : w'.objs = w.objs.set i o') : Notices w' := by
  have hwaits : o'.waits = o.waits := by rw [Obj.waits, htold, hkey, Obj.waits]
  refine ⟨fun j ↦ ?_, fun j ↦ ?_, ?_, hobjs ▸ made_set h.made hmade⟩
  · rw [hnotices, hobjs, any_set_same ho htold]
    exact h.opened j
  · rw [hnotices, hobjs, any_set_same ho (decide_eq_decide.mpr hclosed)]
    exact h.closed j
  · rw [hnotices, hobjs, hconnecting, hdialed, countP_set_same ho hwaits]
    exact h.dialed

theorem made_append {objs : List Obj} (h : ∀ o ∈ objs, o.place = .made → o.life = .unset)
    (key : Option (BitVec 16)) :
    ∀ o ∈ objs ++ [⟨key, .made, 0, .unset⟩], o.place = .made → o.life = .unset := by
  intro o ho
  rcases List.mem_append.mp ho with hold | hnew
  · exact h o hold
  · rw [List.mem_singleton.mp hnew]
    exact fun _ ↦ rfl

theorem Notices.release (h : Notices w) (key : Option (BitVec 16)) : Notices (w.release key) := by
  cases key with
  | none => exact h
  | some k => exact ⟨h.opened, h.closed, h.dialed, h.made⟩

theorem Notices.moves (h : Notices w) (hnumbers : Numbers w) (hmoves : Moves w a w') :
    Notices w' := by
  cases hmoves with
  | exhausted => exact ⟨h.opened, h.closed, h.dialed, h.made⟩
  | listen => exact ⟨h.opened, h.closed, h.dialed, h.made⟩
  | connect =>
      refine ⟨h.opened, h.closed, ?_, h.made⟩
      have hdialed := h.dialed
      simp only [List.length_append, List.length_singleton]
      omega
  | refused => exact h
  | accepted =>
      refine ⟨fun j ↦ ?_, fun j ↦ ?_, ?_, made_append h.made none⟩
      · rw [onNewSocket, any_append (by rfl)]
        exact h.opened j
      · rw [onNewSocket, any_append (by rfl)]
        exact h.closed j
      · have hwaits : Obj.waits ⟨none, .made, 0, .unset⟩ = false := by rfl
        rw [onNewSocket, List.countP_append, List.countP_singleton, hwaits]
        exact h.dialed
  | @connected k hk hfound =>
      refine ⟨fun j ↦ ?_, fun j ↦ ?_, ?_, made_append h.made (some k)⟩
      · rw [onNewSocket, any_append (by rfl)]
        exact h.opened j
      · rw [onNewSocket, any_append (by rfl)]
        exact h.closed j
      · have hwaits : Obj.waits ⟨some k, .made, 0, .unset⟩ = true := by rfl
        have hlength := List.length_erase_of_mem hk
        have hpos := List.length_pos_of_mem hk
        have hdialed := h.dialed
        simp only [onNewSocket, List.countP_append, List.countP_singleton, hwaits, if_true]
        omega
  | unknown hk hfound =>
      exact absurd (hnumbers.connectors.mem_iff.mpr (List.mem_append_left _ hk)) hfound
  | @connectFailed k hk =>
      have hfound := hnumbers.connectors.mem_iff.mpr (List.mem_append_left _ hk)
      refine ⟨fun j ↦ ?_, fun j ↦ ?_, ?_, h.made⟩
      · simp only [if_pos hfound, List.countP_append]
        exact h.opened j
      · simp only [if_pos hfound, List.count_append]
        exact h.closed j
      · have hlength := List.length_erase_of_mem hk
        have hpos := List.length_pos_of_mem hk
        have hdialed := h.dialed
        simp only [if_pos hfound, List.countP_append, List.countP_singleton,
          Announcement.answers, if_true]
        omega
  | added ho hplace hadd =>
      have hunset := h.made _ (List.mem_of_getElem? ho) hplace
      exact h.set ho (by simp [Obj.isTold, hplace]) (by simp [hunset]) (by rfl) (by simp) rfl rfl
        rfl rfl
  | begun ho hplace =>
      exact h.set ho (by simp [Obj.isTold, hplace]) (by rfl) (by rfl) (by simp) rfl rfl rfl rfl
  | @told i o ho hplace =>
      have htold : o.isTold = false := by simp [Obj.isTold, hplace]
      refine ⟨fun j ↦ ?_, fun j ↦ ?_, ?_, made_set h.made (by simp)⟩
      · have hopens : List.countP (Announcement.opens j)
            [if o.key.isSome then Announcement.connected i else .accepted i] =
              if i = j then 1 else 0 := by
          rw [List.countP_singleton]
          by_cases hij : i = j <;> cases o.key.isSome <;> simp [Announcement.opens, hij]
        rw [List.countP_append, h.opened j, hopens, any_set ho]
        split_ifs with hij
        · rw [← hij, ho, Option.any_some, htold]
          rfl
        · rfl
      · rw [List.count_append, h.closed j, any_set_same ho (by rfl)]
        cases o.key.isSome <;> rfl
      · have hdialed := h.dialed
        rw [List.countP_append, List.countP_singleton]
        cases hkey : o.key with
        | none =>
            rw [countP_set_same ho (by simp [Obj.waits, hkey])]
            exact hdialed
        | some k =>
            have hdrop := @countP_set_drop w i o ⟨some k, .told, o.id, o.life⟩ Obj.waits ho
              (by simp [Obj.waits, hkey, htold]) (by simp [Obj.waits, Obj.isTold])
            simp only [Option.isSome_some, if_true, Announcement.answers]
            omega
  | ended ho hplace =>
      refine Notices.release ?_ _
      exact h.set ho (by simp [Obj.isTold, hplace]) (by rfl) (by rfl) (by simp) rfl rfl rfl rfl
  | error ho hlife =>
      refine h.set ho (by rfl) (by simp [hlife]) (by rfl) (fun hmade ↦ ?_) rfl rfl rfl rfl
      rw [h.made _ (List.mem_of_getElem? ho) hmade] at hlife
      cases hlife
  | @disconnect i o ho hlife =>
      refine ⟨fun j ↦ ?_, fun j ↦ ?_, ?_, made_set h.made fun hmade ↦ ?_⟩
      · rw [List.countP_append, h.opened j, any_set_same ho (by rfl)]
        rfl
      · have hcount : List.count (.disconnected j) [Announcement.disconnected i] =
            if i = j then 1 else 0 := by
          by_cases hij : i = j <;> simp [hij]
        rw [List.count_append, h.closed j, hcount, any_set ho]
        split_ifs with hij
        · rw [← hij, ho, Option.any_some, hlife]
          rfl
        · rfl
      · rw [List.countP_append, countP_set_same ho (by rfl)]
        exact h.dialed
      · rw [h.made _ (List.mem_of_getElem? ho) hmade] at hlife
        cases hlife

/-! ## Ids -/

/-- A slot that is given out has been used fewer than 65535 times before. -/
def Fresh (w : TcpNodeRun) : Action → Prop
  | .handle i => (∃ o, w.objs[i]? = some o ∧ o.place = .made) →
      SlotVector.History.Sound maxSlot w.protocols (.add i)
  | _ => True

/-- The ids belong to the live objects. -/
structure Registered (w : TcpNodeRun) : Prop where
  history : SlotVector.History.Inv w.protocols
  live : ∀ id i, w.protocols.live.get? id = some i ↔
    ∃ o, w.objs[i]? = some o ∧ o.life = .live ∧ o.id = id
  issued : ∀ id i, w.protocols.live.get? id = some i → id ∈ w.protocols.issued
  size : w.protocols.live.size = w.objs.countP (·.life = .live)

theorem Registered.set (h : Registered w) (ho : w.objs[i]? = some o)
    (hlife : o'.life = .live ↔ o.life = .live) (hid : o'.id = o.id)
    (hprotocols : w'.protocols = w.protocols) (hobjs : w'.objs = w.objs.set i o') :
    Registered w' := by
  refine ⟨hprotocols ▸ h.history, fun id j ↦ ?_, hprotocols ▸ h.issued, ?_⟩
  · rw [hprotocols, h.live, hobjs, List.getElem?_set]
    split_ifs with hij hlt
    · subst hij
      simp [ho, hlife, hid]
    · exact absurd (List.getElem?_eq_some_iff.mp ho).1 hlt
    · exact Iff.rfl
  · rw [hprotocols, h.size, hobjs, countP_set_same ho (decide_eq_decide.mpr hlife)]

theorem Registered.onNewSocket (h : Registered w) (key : Option (BitVec 16)) :
    Registered (w.onNewSocket key) := by
  refine ⟨h.history, fun id j ↦ ?_, h.issued, ?_⟩
  · rw [TcpNodeRun.onNewSocket, h.live]
    rcases Nat.lt_trichotomy j w.objs.length with hlt | rfl | hgt
    · rw [List.getElem?_append_left hlt]
    · simp
    · rw [List.getElem?_eq_none (by omega), List.getElem?_eq_none (by simp; omega)]
  · rw [TcpNodeRun.onNewSocket, List.countP_append, h.size]
    rfl

theorem Registered.release (h : Registered w) (key : Option (BitVec 16)) :
    Registered (w.release key) := by
  cases key with
  | none => exact h
  | some k => exact ⟨h.history, h.live, h.issued, h.size⟩

/-- A new id is of no other object. -/
theorem Registered.add (h : Registered w) {id : UInt32} {vec : SlotVector ℕ}
    (ho : w.objs[i]? = some o) (hlife : o.life = .unset)
    (hsound : SlotVector.History.Sound maxSlot w.protocols (.add i))
    (hadd : w.protocols.vec.add maxSlot i = (.ok id, vec)) :
    Registered { w with
      protocols := w.protocols.step maxSlot (.add i)
      objs := w.objs.set i { o with place := .added, id := id, life := .live } } := by
  obtain ⟨hlt, -⟩ := List.getElem?_eq_some_iff.mp ho
  have hstep : w.protocols.step maxSlot (.add i) =
      ⟨vec, w.protocols.live.insert id i, id :: w.protocols.issued⟩ := by
    simp only [SlotVector.History.step, hadd]
  have hfresh : id ∉ w.protocols.issued := by
    rcases h.history.add hsound with hfull | ⟨id', vec', hadd', hnew, -⟩
    · rw [hadd] at hfull
      cases hfull
    · rw [hadd] at hadd'
      cases hadd'
      exact hnew
  have hnone : w.protocols.live.get? id = none := by
    cases hget : w.protocols.live.get? id with
    | none => rfl
    | some j => exact absurd (h.issued id j hget) hfresh
  refine ⟨h.history.step hsound, fun id' j ↦ ?_, fun id' j hj ↦ ?_, ?_⟩
  · rw [hstep, Table.get?_insert]
    have hold := h.live id' j
    by_cases hij : i = j
    · subst hij
      have hnot : w.protocols.live.get? id' ≠ some i := by
        rw [ne_eq, hold, ho]
        rintro ⟨o', ho', hlive, -⟩
        cases ho'
        rw [hlife] at hlive
        cases hlive
      rw [List.getElem?_set_self hlt]
      by_cases hid : id' = id
      · simp [hid]
      · simp [hid, hnot, Ne.symm hid]
    · rw [List.getElem?_set_ne hij]
      by_cases hid : id' = id
      · rw [← hold, hid, hnone, if_pos rfl]
        simp [hij]
      · rw [if_neg hid, hold]
  · rw [hstep] at hj ⊢
    rw [Table.get?_insert] at hj
    split_ifs at hj with hid
    · exact hid ▸ List.mem_cons_self
    · exact List.mem_cons_of_mem _ (h.issued id' j hj)
  · rw [hstep, Table.size_insert hnone, h.size, countP_set_add ho (by simp [hlife]) (by simp)]

theorem Registered.del (h : Registered w) (ho : w.objs[i]? = some o) (hlife : o.life = .live) :
    Registered { w with
      protocols := w.protocols.step maxSlot (.del o.id)
      objs := w.objs.set i { o with life := .closing } } := by
  have hown := (h.live o.id i).mpr ⟨o, ho, hlife, rfl⟩
  have hsound : SlotVector.History.Sound maxSlot w.protocols (.del o.id) :=
    .inl (by rw [hown]; rfl)
  obtain ⟨hlt, -⟩ := List.getElem?_eq_some_iff.mp ho
  refine ⟨h.history.step hsound, fun id j ↦ ?_, fun id j hj ↦ ?_, ?_⟩
  · rw [SlotVector.History.step, Table.get?_erase]
    have hold := h.live id j
    by_cases hij : i = j
    · subst hij
      rw [List.getElem?_set_self hlt]
      by_cases hid : id = o.id
      · simp [hid]
      · rw [if_neg hid, hold, ho]
        simp [hlife, Ne.symm hid]
    · rw [List.getElem?_set_ne hij]
      by_cases hid : id = o.id
      · rw [← hold, hid, hown, if_pos rfl]
        simp [hij]
      · rw [if_neg hid, hold]
  · rw [SlotVector.History.step] at hj ⊢
    rw [Table.get?_erase] at hj
    split_ifs at hj
    exact h.issued id j hj
  · have hdrop := @countP_set_drop w i o { o with life := .closing } (·.life = .live) ho
      (by simp [hlife]) (by simp)
    have herase := Table.size_erase hown
    rw [h.size] at herase
    rw [SlotVector.History.step]
    exact Nat.succ_injective (herase.trans hdrop.symm)

theorem Registered.moves (h : Registered w) (hnotices : Notices w) (ha : Fresh w a)
    (hmoves : Moves w a w') : Registered w' := by
  cases hmoves with
  | exhausted => exact ⟨h.history, h.live, h.issued, h.size⟩
  | listen => exact ⟨h.history, h.live, h.issued, h.size⟩
  | connect => exact ⟨h.history, h.live, h.issued, h.size⟩
  | refused => exact h
  | accepted => exact h.onNewSocket none
  | connected =>
      refine Registered.onNewSocket ?_ _
      exact ⟨h.history, h.live, h.issued, h.size⟩
  | unknown => exact ⟨h.history, h.live, h.issued, h.size⟩
  | connectFailed => exact ⟨h.history, h.live, h.issued, h.size⟩
  | added ho hplace hadd =>
      exact h.add ho (hnotices.made _ (List.mem_of_getElem? ho) hplace) (ha ⟨_, ho, hplace⟩) hadd
  | begun ho => exact h.set ho (by rfl) (by rfl) rfl rfl
  | told ho => exact h.set ho (by rfl) (by rfl) rfl rfl
  | ended ho =>
      refine Registered.release ?_ _
      exact h.set ho (by rfl) (by rfl) rfl rfl
  | error ho hlife => exact h.del ho hlife
  | disconnect ho hlife => exact h.set ho (by simp [hlife]) (by rfl) rfl rfl

/-! ## Runs -/

variable {ok : TcpNodeRun → Action → Prop} {reserve : BitVec 16}

theorem numbers_make (reserve : BitVec 16) : Numbers (make reserve) := by
  have hwithin := @IdPool.within_make 16 1 0xFFFF (by decide) reserve
  exact ⟨hwithin.low_eq, hwithin.high_eq, hwithin.accounts, rfl, .refl _⟩

theorem Numbers.of_reaches (h : Reaches TcpNodeRun.step ok (make reserve) w) : Numbers w :=
  h.invariant (numbers_make reserve) fun _ _ _ hinv _ hstep ↦ hinv.moves (step_moves hstep)

theorem Notices.of_reaches (h : Reaches TcpNodeRun.step ok (make reserve) w) : Notices w := by
  refine (@Reaches.invariant _ _ _ _ (fun w ↦ Numbers w ∧ Notices w) _ _ h
    ⟨numbers_make reserve, ?_⟩ ?_).2
  · exact ⟨fun _ ↦ rfl, fun _ ↦ rfl, rfl, fun o ho ↦ absurd ho List.not_mem_nil⟩
  · rintro s a s' ⟨hnumbers, hnotices⟩ - hstep
    exact ⟨hnumbers.moves (step_moves hstep), hnotices.moves hnumbers (step_moves hstep)⟩

theorem Registered.of_reaches (h : Reaches TcpNodeRun.step Fresh (make reserve) w) :
    Registered w := by
  refine (@Reaches.invariant _ _ _ _ (fun w ↦ (Numbers w ∧ Notices w) ∧ Registered w) _ _ h
    ⟨⟨numbers_make reserve, ?_⟩, ?_⟩ ?_).2
  · exact @Notices.of_reaches (make reserve) Fresh reserve .refl
  · refine ⟨SlotVector.History.inv_initial, fun id i ↦ ?_, fun id i hi ↦ ?_, rfl⟩
    · simp [make, SlotVector.History.initial]
    · simp [make, SlotVector.History.initial] at hi
  · rintro s a s' ⟨⟨hnumbers, hnotices⟩, hregistered⟩ ha hstep
    have hmoves := step_moves hstep
    exact ⟨⟨hnumbers.moves hmoves, hnotices.moves hnumbers hmoves⟩,
      hregistered.moves hnotices ha hmoves⟩

/-- `get` finds exactly the objects that have an id and have not been lost, each under its own,
and `on_finish` waits for as many. -/
theorem get_eq_some_iff {reserve : BitVec 16} {w : TcpNodeRun}
    (h : Reaches TcpNodeRun.step Fresh (make reserve) w) :
    (∀ id i, w.protocols.vec.get id = some i ↔
      ∃ o, w.objs[i]? = some o ∧ o.life = .live ∧ o.id = id) ∧
    w.protocols.vec.usedCount.toNat = w.objs.countP (·.life = .live) := by
  have hregistered := Registered.of_reaches h
  refine ⟨fun id i ↦ ?_, ?_⟩
  · rw [hregistered.history.get, hregistered.live]
  · rw [hregistered.history.used, hregistered.size]

/-- An accepted connection is found under its id. -/
theorem get_eq_some_iff_accepted : ∃ w,
    Reaches TcpNodeRun.step Fresh (make 2) w ∧ w.protocols.vec.get 1 = some 0 ∧
      ∃ o, w.objs[0]? = some o ∧ o.life = .live ∧ o.id = 1 := by
  obtain ⟨w, hreach, hw⟩ := @exists_reaches_checked _ _ TcpNodeRun.step Fresh (make 2)
    [.listen, .accepted 1, .handle 0]
    (fun s _ ↦ s.protocols.vec.freeSlots.isEmpty && s.protocols.vec.slots.length < 2 ^ 16)
    (fun w ↦ w.protocols.vec.get 1 = some 0)
    (fun s a h ↦ by
      simp only [Bool.and_eq_true, List.isEmpty_iff, decide_eq_true_eq] at h
      cases a with
      | handle i =>
          intro _ _
          rw [h.1]
          exact h.2
      | _ => trivial)
    (by decide)
  have hget := of_decide_eq_true hw
  exact ⟨w, hreach, hget, ((get_eq_some_iff hreach).1 1 0).mp hget⟩

/-- Every socket is announced at most once, and once when its handler has ended; the loss of a
connection is told at most once; every connect is under way or has been answered once. -/
theorem notices_once {reserve : BitVec 16} {w : TcpNodeRun}
    (h : Reaches TcpNodeRun.step (fun _ _ ↦ True) (make reserve) w) :
    (∀ i, w.notices.countP (Announcement.opens i) = (w.objs[i]?.any Obj.isTold).toNat) ∧
    (∀ i, w.notices.count (.disconnected i) = (w.objs[i]?.any (·.life = .closed)).toNat) ∧
    w.dialed = w.connecting.length + w.objs.countP Obj.waits +
      w.notices.countP Announcement.answers := by
  have hnotices := Notices.of_reaches h
  exact ⟨hnotices.opened, hnotices.closed, hnotices.dialed⟩

/-- A connection that is lost before it has been announced. -/
theorem notices_once_early : ∃ w,
    Reaches TcpNodeRun.step (fun _ _ ↦ True) (make 2) w ∧
      w.notices = [.disconnected 0, .connected 0] ∧
        w.dialed =
          w.connecting.length + w.objs.countP Obj.waits +
            w.notices.countP Announcement.answers := by
  obtain ⟨w, hreach, hw⟩ := @exists_reaches _ _ TcpNodeRun.step (fun _ _ ↦ True) (make 2)
    [.connect, .connected 1, .handle 0, .handle 0, .error 0, .disconnect 0, .handle 0]
    (fun w ↦ w.notices = [.disconnected 0, .connected 0]) (fun _ _ _ ↦ trivial) (by decide)
  exact ⟨w, hreach, of_decide_eq_true hw, (notices_once hreach).2.2⟩

/-- `listen` and `connect` throw exactly when 65534 numbers are in use: one for each `listen` that
ever got one, whether it could listen or not, and one for each connect that is not through. -/
theorem next_fails_iff {reserve : BitVec 16} {w : TcpNodeRun}
    (h : Reaches TcpNodeRun.step (fun _ _ ↦ True) (make reserve) w) :
    (∃ e, w.seq.next.1 = .error e) ↔
      w.listened + w.connecting.length + (w.objs.filterMap Obj.holds).length = 65534 := by
  have hnumbers := Numbers.of_reaches h
  have hcount : (w.acceptors ++ w.connectors).length =
      w.listened + w.connecting.length + (w.objs.filterMap Obj.holds).length := by
    rw [List.length_append, hnumbers.acceptors, hnumbers.connectors.length_eq, List.length_append,
      Nat.add_assoc]
  have hrange : (w.seq.high - w.seq.low).toNat = 65534 := by
    rw [hnumbers.high, hnumbers.low]
    rfl
  rw [← hcount]
  rcases hnumbers.accounts.next with ⟨n, hn, -, -, -, -, hlt⟩ | ⟨⟨e, he⟩, hall⟩
  · rw [hrange] at hlt
    refine iff_of_false ?_ (Nat.ne_of_lt hlt)
    rintro ⟨e, he⟩
    rw [hn] at he
    cases he
  · rw [hrange] at hall
    exact iff_of_true ⟨e, by rw [he]⟩ hall

theorem next_fails_iff_listening : ∃ w,
    Reaches TcpNodeRun.step (fun _ _ ↦ True) (make 2) w ∧ w.listened = 2 ∧
      ((∃ e, w.seq.next.1 = .error e) ↔
        w.listened + w.connecting.length + (w.objs.filterMap Obj.holds).length = 65534) := by
  obtain ⟨w, hreach, hw⟩ := @exists_reaches _ _ TcpNodeRun.step (fun _ _ ↦ True) (make 2)
    [.listen, .connect, .listen, .connectFailed 2] (fun w ↦ w.listened = 2)
    (fun _ _ _ ↦ trivial) (by decide)
  exact ⟨w, hreach, of_decide_eq_true hw, next_fails_iff hreach⟩

end

end TcpNodeRun

end WiseKernel.Net
