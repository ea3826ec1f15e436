import Mathlib.Data.List.Nodup
import Mathlib.Logic.Function.Basic
import Mathlib.Logic.ExistsUnique
import WiseKernel.Core.Task
import WiseKernel.Lib.Runs

/-!
# The task scheduler

Runners, the thread that calls `schedule` and `finish`, and the application take
steps in any order.  A queue is linearizable: its operations are single steps.
-/

namespace WiseKernel.Core.Task

open WiseKernel.Lib

/-- Where a runner stands. -/
inductive Pc (T : Type)
  /-- `task_runner::start` was not called -/
  | unstarted
  /-- before the test of the outer loop -/
  | outer
  /-- before the test of `stop_` in the inner loop -/
  | inner
  /-- before `scheduler_.pop` -/
  | pop
  | work (φ : Phase) (t : T)
  /-- before `++loop_count` -/
  | count
  /-- `run` has returned -/
  | exited

structure Runner (T : Type) where
  pc : Pc T
  stop : Bool
  loopCount : ℕ

/-- Where the thread of `schedule` and `finish` stands. -/
inductive Main (ρ T : Type)
  | idle
  /-- before `check_timeout` for a wait queue -/
  | schedule (q : Queue)
  /-- before `pop` of a wait queue -/
  | move (q : Queue)
  /-- before `finish` of the next runner -/
  | stop (rest : List ρ)
  /-- in `join` of a runner -/
  | join (i : ρ) (rest : List ρ)
  /-- before `pop` in `finish_queue` -/
  | drain (q : Queue)
  | work (q : Queue) (φ : Phase) (t : T)
  /-- `finish` has returned -/
  | done
  /-- `finish` has been left by an exception -/
  | aborted

variable {ρ T : Type}

/-- `task_scheduler` with its tasks and runners.  `pending` are the calls of
`pause` and `cancel` that have read the state and not written it yet, `added`
the tasks of all calls of `add`, `retired` those that are not scheduled again. -/
structure System (ρ T : Type) where
  task : T → Task
  queue : Queue → List T
  runner : ρ → Runner T
  main : Main ρ T
  runners : List ρ
  pending : List (T × Status)
  added : List T
  retired : List (T × Reason)
  trace : List (T × Note)

/-- The task a runner holds, and where it stands with it. -/
def Pc.stage : Pc T → Option (Phase × T)
  | .work φ t => some (φ, t)
  | _ => none

def Main.stage : Main ρ T → Option (Phase × T)
  | .work _ φ t => some (φ, t)
  | _ => none

/-- The wait queue, or the queue to drain, after another. -/
def Queue.after : Queue → Option Queue
  | .run => some .wait1
  | .wait1 => some .wait2
  | .wait2 => some .wait3
  | .wait3 => none

/-- A step of the system. -/
inductive Action (ρ T : Type)
  | add (t : T)
  /-- `task_runner::start`, called by `task_scheduler::start` -/
  | start (i : ρ)
  | runner (i : ρ) (c : Choice)
  | schedule
  | finish
  | main (c : Choice)
  /-- `pause` reads the state -/
  | pause (t : T)
  /-- `cancel` reads the state -/
  | cancel (t : T)
  /-- a call of `pause` or `cancel` writes the state -/
  | write (k : ℕ)
  /-- `resume`; its assertion only logs -/
  | resume (t : T)
  | setPriority (t : T) (p : Priority)

/-- Where a runner goes on after a step with its task. -/
def Outcome.pc (t : T) : Outcome → Pc T
  | .go φ | .write _ φ | .emit _ φ => .work φ t
  | .put _ counted | .retire _ counted => if counted then .count else .inner
  | .thrown => .inner

/-- Where `schedule` or `finish_queue` goes on; nothing catches its exceptions. -/
def Outcome.main (q : Queue) (t : T) : Outcome → Main ρ T
  | .go φ | .write _ φ | .emit _ φ => .work q φ t
  | .put _ _ => .move q
  | .retire _ _ => .drain q
  | .thrown => .aborted

namespace System

variable [DecidableEq ρ] [DecidableEq T]

def initial : System ρ T where
  task _ := ⟨.constructed, .level1⟩
  queue _ := []
  runner _ := ⟨.unstarted, true, 0⟩
  main := .idle
  runners := []
  pending := []
  added := []
  retired := []
  trace := []

variable (s : System ρ T)

def setState (t : T) (st : Status) : System ρ T :=
  { s with task := Function.update s.task t { s.task t with state := st } }

def emit (t : T) (n : Note) : System ρ T := { s with trace := s.trace ++ [(t, n)] }

def setQueue (q : Queue) (l : List T) : System ρ T :=
  { s with queue := Function.update s.queue q l }

def setRunner (i : ρ) (r : Runner T) : System ρ T :=
  { s with runner := Function.update s.runner i r }

/-- What a step with a task does to the system. -/
def act (t : T) : Outcome → System ρ T
  | .go _ => s
  | .write st _ => if st = .finished then (s.setState t st).emit t .finished else s.setState t st
  | .emit n _ => s.emit t n
  | .put q _ => s.setQueue q (s.queue q ++ [t])
  | .retire r _ => { s with retired := s.retired ++ [(t, r)] }
  | .thrown => { s with retired := s.retired ++ [(t, .threw)] }

/-- The next step of `task_runner::run`. -/
def stepRunner (limit : ℕ) (i : ρ) (c : Choice) : Option (System ρ T) :=
  let r := s.runner i
  match r.pc with
  | .unstarted | .exited => none
  | .outer =>
      some (s.setRunner i
        (if r.stop then { r with pc := .exited } else { r with pc := .inner, loopCount := 0 }))
  | .inner => some (s.setRunner i { r with pc := if r.stop then .outer else .pop })
  | .pop =>
      match s.queue .run with
      | [] => some (s.setRunner i { r with pc := .outer })
      | t :: rest => some ((s.setQueue .run rest).setRunner i { r with pc := .work .check t })
  | .work φ t =>
      match φ.next (s.task t) c with
      | none => none
      | some o => some ((s.act t o).setRunner i { r with pc := o.pc t })
  | .count =>
      let loopCount := r.loopCount + 1
      let pc := if 0 < limit ∧ limit ≤ loopCount then .outer else .inner
      some (s.setRunner i { r with pc := pc, loopCount := loopCount })

/-- The next step of `schedule` or of `task_scheduler::finish`. -/
def stepMain (c : Choice) : Option (System ρ T) :=
  match s.main with
  | .idle | .done | .aborted => none
  | .schedule q =>
      match c with
      | .timeout true => some { s with main := .move q }
      | .timeout false => some { s with main := q.after.elim .idle .schedule }
      | _ => none
  | .move q =>
      match s.queue q with
      | [] => some { s with main := q.after.elim .idle .schedule }
      | t :: rest => some { s.setQueue q rest with main := .work q .hand t }
  | .stop [] => some { s with main := .drain .run }
  | .stop (i :: rest) =>
      some { s.setRunner i { s.runner i with stop := true } with main := .join i rest }
  | .join i rest =>
      match (s.runner i).pc with
      | .exited => some { s with main := .stop rest }
      | _ => none
  | .drain q =>
      match s.queue q with
      | [] => some { s with main := q.after.elim .done .drain }
      | t :: rest => some { s.setQueue q rest with main := .work q .testStarted t }
  | .work q φ t =>
      match φ.next (s.task t) c with
      | none => none
      | some o => some { s.act t o with main := o.main q t }

/-- A task is added once. -/
def step (limit : ℕ) (s : System ρ T) : Action ρ T → Option (System ρ T)
  | .add t =>
      if t ∈ s.added then none
      else some { s.setQueue .run (s.queue .run ++ [t]) with added := s.added ++ [t] }
  | .start i =>
      match (s.runner i).pc, s.main with
      | .unstarted, .idle =>
          some { s.setRunner i { s.runner i with pc := .outer, stop := false } with
            runners := s.runners ++ [i] }
      | _, _ => none
  | .runner i c => s.stepRunner limit i c
  | .schedule =>
      match s.main with
      | .idle => some { s with main := .schedule .wait1 }
      | _ => none
  | .finish =>
      match s.main with
      | .idle => some { s with main := .stop s.runners }
      | _ => none
  | .main c => s.stepMain c
  | .pause t =>
      if (s.task t).state = .finished then some s
      else some { s with pending := s.pending ++ [(t, .paused)] }
  | .cancel t =>
      if (s.task t).state = .finished then some s
      else some { s with pending := s.pending ++ [(t, .cancelled)] }
  | .write k =>
      match s.pending[k]? with
      | none => none
      | some (t, st) =>
          let s := { s.setState t st with pending := s.pending.eraseIdx k }
          some (if st = .cancelled then s.emit t .cancelled else s)
  | .resume t => some (s.setState t .started)
  | .setPriority t p =>
      some { s with task := Function.update s.task t { s.task t with priority := p } }

section

variable {s} {t : T} {o : Outcome} {i : ρ}

@[simp] theorem act_runner : (s.act t o).runner = s.runner := by
  cases o with
  | write st φ =>
      simp only [act]
      split_ifs <;> rfl
  | _ => rfl

@[simp] theorem act_main : (s.act t o).main = s.main := by
  cases o with
  | write st φ =>
      simp only [act]
      split_ifs <;> rfl
  | _ => rfl

@[simp] theorem act_added : (s.act t o).added = s.added := by
  cases o with
  | write st φ =>
      simp only [act]
      split_ifs <;> rfl
  | _ => rfl

theorem setRunner_runner (r : Runner T) (j : ρ) :
    (s.setRunner i r).runner j = if j = i then r else s.runner j :=
  Function.update_apply ..

end

end System

end WiseKernel.Core.Task
