import Mathlib.Data.List.Basic

/-!
# A task in the hands of a thread

`task_runner::run` takes a task from the run queue and decides what to do with
it from `state_`, which the application overwrites at any time: every read and
every write of it is a step of its own, and so is every call of a callback.
`task_scheduler` holds a task for a moment in `schedule`, and in `finish`.
-/

namespace WiseKernel.Core

namespace Task

/-- `task::state` -/
inductive Status
  | constructed | started | cancelled | paused | finished
  deriving DecidableEq, Repr

/-- `task::result` -/
inductive Result
  | success | fail | exit | finished
  deriving DecidableEq, Repr

/-- `task::priority` -/
inductive Priority
  | realtime | level1 | level2 | level3
  deriving DecidableEq, Repr

end Task

open Task in
/-- `task`: the fields that decide what is done with it. -/
structure Task where
  state : Status
  priority : Priority
  deriving DecidableEq, Repr

namespace Task

/-- The queues of `task_scheduler`. -/
inductive Queue
  | run | wait1 | wait2 | wait3
  deriving DecidableEq, Repr

/-- Where `pass` puts a task. -/
def Priority.queue : Priority → Queue
  | .realtime => .run
  | .level1 => .wait1
  | .level2 => .wait2
  | .level3 => .wait3

/-- Why a task is not in a queue again. -/
inductive Reason
  | startFailed | fail | exit | finished | threw | drained
  deriving DecidableEq, Repr

/-- What is seen of a task from outside: a callback is called, `on_start` has
returned true, `cancel` or `finish` has written the state. -/
inductive Note
  | onStart | started | onExecute | onFinish | finished | cancelled
  deriving DecidableEq, Repr

/-- Where a thread stands with the task it holds. -/
inductive Phase
  /-- before `get_state() == constructed` -/
  | check
  /-- inside `on_start` -/
  | onStart
  /-- before `state_ = started` -/
  | startWrite
  /-- before `return state_ == started` -/
  | startRead
  /-- before `get_state() == paused` of the runner -/
  | testPaused
  /-- before the three tests of `execute` -/
  | executeFinished | executeCancelled | executePaused
  /-- before the call of `on_execute` -/
  | call
  /-- inside `on_execute` -/
  | onExecute
  /-- before the call of `on_finish` -/
  | finish (r : Reason)
  /-- inside `on_finish` -/
  | onFinish (r : Reason)
  /-- before `state_ = finished` -/
  | finishWrite (r : Reason)
  /-- `finish` has returned -/
  | drop (r : Reason)
  /-- before `pass` reads the priority; `counted` if the loop counter is next -/
  | pass (counted : Bool)
  /-- before the push of `pass` -/
  | push (q : Queue) (counted : Bool)
  /-- between `pop` and `push` of `schedule` -/
  | hand
  /-- before `get_state() == started` of `finish_queue` -/
  | testStarted
  /-- before `get_state() == cancelled` of `finish_queue` -/
  | testCancelled
  deriving DecidableEq, Repr

/-- How a callback ends, or what `check_timeout` says. -/
inductive Choice
  | start (ok : Bool)
  | execute (rc : Result)
  | returns
  | throws
  | timeout (passed : Bool)
  deriving DecidableEq, Repr

/-- What one step does with the task. -/
inductive Outcome
  | go (φ : Phase)
  | write (st : Status) (φ : Phase)
  | emit (n : Note) (φ : Phase)
  | put (q : Queue) (counted : Bool)
  | retire (r : Reason) (counted : Bool)
  | thrown
  deriving DecidableEq, Repr

/-- The next step of a thread with its task; only callbacks choose. -/
def Phase.next (task : Task) (c : Choice) : Phase → Option Outcome
  | .check =>
      some (if task.state = .constructed then .emit .onStart .onStart else .go .testPaused)
  | .onStart =>
      match c with
      | .start true => some (.emit .started .startWrite)
      | .start false => some (.go .startRead)
      | .throws => some .thrown
      | _ => none
  | .startWrite => some (.write .started .startRead)
  | .startRead =>
      -- `continue` on a failure
      some (if task.state = .started then .go .testPaused else .retire .startFailed false)
  | .testPaused => some (.go (if task.state = .paused then .pass false else .executeFinished))
  | .executeFinished =>
      -- no case of the `switch` is for `result::finished`
      some (if task.state = .finished then .retire .finished true else .go .executeCancelled)
  | .executeCancelled =>
      some (.go (if task.state = .cancelled then .finish .exit else .executePaused))
  | .executePaused => some (.go (if task.state = .paused then .pass true else .call))
  | .call => some (.emit .onExecute .onExecute)
  | .onExecute =>
      match c with
      | .execute .success => some (.go (.pass true))
      | .execute .fail => some (.go (.finish .fail))
      | .execute .exit => some (.go (.finish .exit))
      | .execute .finished => some (.retire .finished true)
      | .throws => some .thrown
      | _ => none
  | .finish r => some (.emit .onFinish (.onFinish r))
  | .onFinish r =>
      match c with
      | .returns => some (.go (.finishWrite r))
      | .throws => some .thrown
      | _ => none
  | .finishWrite r => some (.write .finished (.drop r))
  | .drop r => some (.retire r true)
  | .pass counted => some (.go (.push task.priority.queue counted))
  | .push q counted => some (.put q counted)
  | .hand => some (.put .run false)
  | .testStarted =>
      some (.go (if task.state = .started then .finish .drained else .testCancelled))
  | .testCancelled =>
      some (if task.state = .cancelled then .go (.finish .drained) else .retire .drained false)

/-- Where the thread stands with the task after the step. -/
def Outcome.stage {T : Type} (t : T) : Outcome → Option (Phase × T)
  | .go φ | .write _ φ | .emit _ φ => some (φ, t)
  | .put _ _ | .retire _ _ | .thrown => none

end Task

end WiseKernel.Core
