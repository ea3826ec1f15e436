import Mathlib.Algebra.Group.Nat.Defs
import Mathlib.Data.List.MinMax
import Mathlib.Order.Monotone.Defs
import WiseKernel.Core.Sequence
import WiseKernel.Lib.Table

/-!
# The timer

Requests sit in slots, one slot for each polling interval in use.  `execute`
reads the clock once and polls the slots that exist at that moment; polling a
slot runs its requests in the order of `next_run_tick_` until the first one is
not due.  The callbacks of a request may call the timer again.

Ticks are 64-bit milliseconds and their sums wrap.
-/

namespace WiseKernel.Core.Timer

open WiseKernel.Lib

/-- The number of values of `tick_t`. -/
def tickLimit : ℕ := 2 ^ 64

/-- A sum of ticks as `tick_t` holds it. -/
def wrap (n : ℕ) : ℕ := n % tickLimit

def minInterval : ℕ := 10

def intervals : List ℕ :=
  [10, 20, 30, 40, 50, 100, 200, 300, 400, 500, 1000, 2000, 3000, 5000,
    10 * 1000, 20 * 1000, 30 * 1000, 40 * 1000, 50 * 1000, 60 * 1000,
    2 * 60 * 1000, 3 * 60 * 1000, 4 * 60 * 1000, 5 * 60 * 1000,
    10 * 60 * 1000, 30 * 60 * 1000, 60 * 60 * 1000]

/-- The loop of `set` over `intervals`. -/
def findInterval (target : ℕ) : List ℕ → Option ℕ
  | a :: b :: rest =>
      if a ≤ target ∧ target < b then some a else findInterval target (b :: rest)
  | _ => none

/-- The interval of the slot for a request. -/
def slotInterval (interval : ℕ) : ℕ :=
  (findInterval (interval / 2) intervals).getD (intervals.headD 0)

theorem findInterval_le {target fi : ℕ} {l : List ℕ} (h : findInterval target l = some fi) :
    fi ≤ target := by
  fun_induction findInterval target l with
  | case1 a b rest hfound =>
      cases h
      exact hfound.1
  | case2 a b rest _ ih => exact ih h
  | case3 => cases h

/-- The fallback for an interval past the table is the first slot. -/
theorem slotInterval_le (interval : ℕ) :
    slotInterval interval ≤ max minInterval (interval / 2) := by
  unfold slotInterval
  cases hfound : findInterval (interval / 2) intervals with
  | some fi => exact Nat.le_trans (findInterval_le hfound) (Nat.le_max_right _ _)
  | none => exact Nat.le_max_left _ _

/-- `timer::req`; an action is known by a number.  `due` is `next_run_tick_` had
it not wrapped. -/
structure Req where
  id : ℕ
  interval : ℕ
  duration : ℕ
  after : ℕ
  repeats : Bool
  actions : List ℕ
  lastRun : ℕ
  nextRun : ℕ
  endRun : ℕ
  cancel : Bool
  runCount : ℕ
  due : ℕ
  deriving Inhabited, DecidableEq, Repr

/-- The constructor of `req`, with its two readings of the clock. -/
def Req.make (id interval duration after : ℕ) (repeats : Bool) (now later : ℕ) : Req :=
  let interval := max minInterval interval
  { id := id, interval := interval, duration := duration, after := after
    repeats := repeats, actions := [], lastRun := 0
    nextRun := wrap (now + after + interval), endRun := wrap (later + after + duration)
    cancel := false, runCount := 0, due := now + after + interval }

/-- `timer::slot`; the entries of the priority queue are pointers to requests. -/
structure Slot where
  interval : ℕ
  lastRun : ℕ
  queue : List ℕ
  deriving DecidableEq, Repr

/-- The test at the head of `update_slot`. -/
def Slot.Polled (now : ℕ) (sl : Slot) : Prop := wrap (sl.lastRun + sl.interval) ≤ now

instance (now : ℕ) (sl : Slot) : Decidable (sl.Polled now) :=
  inferInstanceAs (Decidable (wrap (sl.lastRun + sl.interval) ≤ now))

/-- A request that `update_slot` takes from the queue of a slot, at the tick
`now`, and whether it runs. -/
structure Turn where
  ref : ℕ
  slot : ℕ
  nextRun : ℕ
  due : ℕ
  now : ℕ
  ran : Bool
  deriving DecidableEq, Repr

inductive Event
  /-- `set` at the tick `now` -/
  | created (ref now after interval : ℕ)
  /-- `add`, and the request whose actions are being called -/
  | added (ref : ℕ) (held : Option ℕ)
  | cancelled (ref : ℕ)
  | turn (t : Turn)
  /-- `update_slot` pushes a request that has run -/
  | rearmed (ref now interval : ℕ)
  deriving DecidableEq, Repr

/-- The calls an application makes, from a callback or from outside. -/
inductive Op
  | set (interval duration : ℕ) (repeats : Bool) (after : ℕ)
  | once (after action : ℕ)
  | repeats (interval action : ℕ)
  | add (id action : ℕ)
  | cancel (id : ℕ)
  deriving DecidableEq, Repr

/-- What the timer does not decide: the readings of the clock, the calls made by
the callbacks and the order of entries with equal keys in a priority queue. -/
structure Env where
  /-- the `k`-th reading of the clock -/
  tick : ℕ → ℕ
  tick_mono : Monotone tick
  tick_lt : ∀ k, tick k < tickLimit
  /-- the calls made by an action that is called with a request's id, as the
  `k`-th call of an action -/
  script : ℕ → ℕ → ℕ → List Op
  /-- `top` of a priority queue -/
  pick : ℕ → (ℕ → ℕ) → List ℕ → Option ℕ
  pick_mem : ∀ {k key l r}, pick k key l = some r → r ∈ l
  pick_le : ∀ {k key l r}, pick k key l = some r → ∀ x ∈ l, key r ≤ key x
  pick_none : ∀ {k key l}, pick k key l = none → l = []

/-- `timer`: the requests allocated so far are `0, .., made - 1`, and `held` is
the one that `update_slot` has popped and not pushed or let go yet.  `reads` and
`calls` count the readings of the clock and the calls of actions. -/
structure State where
  slots : List Slot
  reqs : Table ℕ ℕ
  seq : Sequence
  made : ℕ
  obj : ℕ → Req
  held : Option ℕ
  reads : ℕ
  calls : ℕ
  trace : List Event

/-- A timer just constructed. -/
def initial : State :=
  ⟨[], ∅, Sequence.make 1 (2 ^ 32 - 1) 16, 0, fun _ ↦ default, none, 0, 0, []⟩

namespace State

variable (s : State)

/-- The priority queue of a slot. -/
def queue (i : ℕ) : List ℕ := (s.slots[i]?).elim [] Slot.queue

def record (e : Event) : State := { s with trace := s.trace ++ [e] }

def modifyReq (r : ℕ) (f : Req → Req) : State :=
  { s with obj := Function.update s.obj r (f (s.obj r)) }

/-- `sl.reqs_.push` -/
def push (i r : ℕ) : State :=
  { s with slots := s.slots.modify i fun sl ↦ { sl with queue := sl.queue ++ [r] } }

/-- `sl.reqs_.pop` -/
def pop (i r : ℕ) : State :=
  { s with slots := s.slots.modify i fun sl ↦ { sl with queue := sl.queue.erase r } }

/-- `create_slot`: the index of the slot. -/
def createSlot (interval : ℕ) : ℕ × State :=
  match s.slots.findIdx? fun sl ↦ sl.interval = interval with
  | some i => (i, s)
  | none => (s.slots.length, { s with slots := s.slots ++ [⟨interval, 0, []⟩] })

/-- The end of `set`: the request goes into `reqs_` and from there into a slot.
`now` is the first tick that its constructor has read. -/
def enqueue (i : ℕ) (req : Req) (seq : Sequence) (now : ℕ) : State :=
  let r := s.made
  let reqs := s.reqs.emplace req.id r
  let s : State :=
    { s with
      reqs := reqs, seq := seq, made := r + 1
      obj := Function.update s.obj r req, reads := s.reads + 2 }
  (s.push i ((reqs.get? req.id).getD r)).record (.created r now req.after req.interval)

/-- `set`; the exception of `sequence::next` passes to the caller. -/
def set (env : Env) (interval duration : ℕ) (repeats : Bool) (after : ℕ) :
    Except Sequence.Error ℕ × State :=
  let interval := if interval < minInterval then minInterval else interval
  let slt := s.createSlot (slotInterval interval)
  match slt.2.seq.next with
  | .error e => (.error e, slt.2)
  | .ok (id, seq) =>
      let now := env.tick slt.2.reads
      let later := env.tick (slt.2.reads + 1)
      let req := Req.make id interval duration after repeats now later
      (.ok id, slt.2.enqueue slt.1 req seq now)

def add (id action : ℕ) : Bool × State :=
  match s.reqs.get? id with
  | none => (false, s)
  | some r =>
      (true, (s.modifyReq r fun q ↦ { q with actions := q.actions ++ [action] }).record
        (.added r s.held))

def once (env : Env) (after action : ℕ) : Except Sequence.Error ℕ × State :=
  match s.set env after 0 false 0 with
  | (.error e, s) => (.error e, s)
  | (.ok id, s) => (.ok id, (s.add id action).2)

def repeats (env : Env) (interval action : ℕ) : Except Sequence.Error ℕ × State :=
  match s.set env interval 0 true 0 with
  | (.error e, s) => (.error e, s)
  | (.ok id, s) =>
      let (added, s) := s.add id action
      (.ok (if added then id else 0), s)

def cancel (id : ℕ) : Bool × State :=
  match s.reqs.get? id with
  | none => (false, s)
  | some r =>
      (true, ({ s.modifyReq r fun q ↦ { q with cancel := true } with
        reqs := s.reqs.erase id }).record (.cancelled r))

def perform (env : Env) : Op → State
  | .set interval duration repeats after => (s.set env interval duration repeats after).2
  | .once after action => (s.once env after action).2
  | .repeats interval action => (s.repeats env interval action).2
  | .add id action => (s.add id action).2
  | .cancel id => (s.cancel id).2

/-- One call `act(id_)`. -/
def callback (env : Env) (id : ℕ) (s : State) (action : ℕ) : State :=
  (env.script s.calls action id).foldl (fun s op ↦ s.perform env op)
    { s with calls := s.calls + 1 }

/-- `req::run`; the actions are those found at its start. -/
def run (env : Env) (r : ℕ) : State :=
  ((s.obj r).actions.foldl (callback env (s.obj r).id) s).modifyReq r
    fun q ↦ { q with runCount := q.runCount + 1 }

/-- The last pointer to a request goes away: its destructor gives the id back.
Ids are `int`s, and those that are negative are not given back. -/
def letGo (r : ℕ) : State :=
  { s with
    held := none
    seq := if (s.obj r).id < 2 ^ 31 then s.seq.release (s.obj r).id else s.seq }

def removeEndReq (id : ℕ) : State := { s with reqs := s.reqs.erase id }

/-- `update_slot` pops a request that is due. -/
def take (now i r : ℕ) : State :=
  { (s.pop i r).record
      (.turn ⟨r, i, (s.obj r).nextRun, (s.obj r).due, now, !(s.obj r).cancel⟩) with
    held := some r }

/-- `update_slot` pushes a request again. -/
def rearm (now i r : ℕ) : State :=
  { ((s.modifyReq r fun q ↦
      { q with nextRun := wrap (now + q.interval), due := now + q.interval }).push i r).record
      (.rearmed r now (s.obj r).interval) with
    held := none }

/-- The body of the loop of `update_slot` for a request that is due. -/
def turn (env : Env) (now i r : ℕ) : State :=
  let s := s.take now i r
  if (s.obj r).cancel then s.letGo r
  else
    let s := (s.modifyReq r fun q ↦ { q with lastRun := now }).run env r
    if (s.obj r).repeats || now < (s.obj r).endRun then s.rearm now i r
    else (s.removeEndReq (s.obj r).id).letGo r

/-- The loop of `update_slot`, at most `fuel` times, and whether it has ended. -/
def drain (env : Env) (now i : ℕ) : ℕ → State → State × Bool
  | 0, s => (s, false)
  | fuel + 1, s =>
      match env.pick s.trace.length (fun r ↦ (s.obj r).nextRun) (s.queue i) with
      | none => (s, true)
      | some r =>
          if (s.obj r).nextRun ≤ now then drain env now i fuel (s.turn env now i r)
          else (s, true)

def updateSlot (env : Env) (fuel now i : ℕ) : State × Bool :=
  match s.slots[i]? with
  | none => (s, true)
  | some sl =>
      if sl.Polled now then
        drain env now i fuel
          { s with slots := s.slots.modify i fun sl ↦ { sl with lastRun := now } }
      else (s, true)

/-- The loop of `execute` over the indices of the slots. -/
def poll (env : Env) (fuel now : ℕ) : List ℕ → State → State × Bool
  | [], s => (s, true)
  | i :: is, s =>
      match s.updateSlot env fuel now i with
      | (s, true) => poll env fuel now is s
      | (s, false) => (s, false)

def execute (env : Env) (fuel : ℕ) : State × Bool :=
  poll env fuel (env.tick s.reads) (List.range s.slots.length) { s with reads := s.reads + 1 }

end State

/-- What the application does between two returns of `execute`. -/
inductive Call
  | op (o : Op)
  | execute
  deriving DecidableEq, Repr

def call (env : Env) (fuel : ℕ) (s : State) : Call → State × Bool
  | .op o => (s.perform env o, true)
  | .execute => s.execute env fuel

/-- A call that returns when each loop of `update_slot` may take a number of
turns. -/
def step (env : Env) (s : State) (c : ℕ × Call) : Option State :=
  match call env c.1 s c.2 with
  | (s, true) => some s
  | (_, false) => none

end WiseKernel.Core.Timer
