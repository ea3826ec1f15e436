import Mathlib.Data.List.Basic
import Mathlib.Algebra.Group.Nat.Defs
import Mathlib.Tactic.Common
import WiseKernel.Lib.Runs
import WiseKernel.Server.DbPool

/-!
# Transactions of a database service

`db_service` hands each request to one of its runners, by the key of the request or at
random.  A runner is a thread with a queue, which it empties before it exits.  Requests arrive,
runners move and the service is stopped in any order.
-/

namespace WiseKernel.Server

open WiseKernel.Core WiseKernel.Lib

/-! ## Transactions -/

/-- `tx::result`. -/
inductive TxResult where
  | success
  | fail
  | failKeyInvalid
  | failRunnerNotAvailable
  | failDbNotFound
  | failQueryExecute
  | failQueryException
  | failDbException
  | failDbNotReady
  | failChannelNotFound
  | failInvalidVectorSize
  deriving DecidableEq, Repr

/-- `tx::context`. -/
structure TxContext where
  dir : UInt8
  id : String
  db : String
  key : UInt64
  oid : UInt64
  channel : String
  error : String
  rc : TxResult
  deriving DecidableEq, Repr

/-- `tx`; `sid` is the session that it came from, or 0. -/
structure Tx where
  pic : Topic
  sid : ℕ
  ctx : TxContext
  query : String
  deriving DecidableEq, Repr

/-- What `execute_query` does: it returns a result or throws. -/
inductive Outcome where
  | returned (rc : TxResult)
  | typeIncompatibleError (what : String)
  | nullAccessError (what : String)
  | indexRangeError (what : String)
  | programmingError (what : String)
  | databaseError (what : String)
  deriving DecidableEq, Repr

/-- `db_command::post_result`: the transaction goes back as its own answer. -/
def postResult (rc : TxResult) (tran : Tx) (error : String) : Tx :=
  { tran with ctx := { tran.ctx with dir := 1, error := error, rc := rc } }

/-- `db_command::execute`: the answer that it posts. -/
def execute (tran : Tx) : Outcome → Tx
  | .returned rc =>
      if rc ≠ .success then postResult .failQueryExecute tran "Query execute error"
      else postResult .success tran "succss"
  | .typeIncompatibleError what => postResult .failQueryException tran what
  | .nullAccessError what => postResult .failQueryException tran what
  | .indexRangeError what => postResult .failQueryException tran what
  | .programmingError what => postResult .failQueryException tran what
  | .databaseError what => postResult .failDbException tran what

/-- The answer of a service without runners. -/
def failTx (tran : Tx) : Tx :=
  { tran with ctx := { tran.ctx with dir := 1, rc := .failRunnerNotAvailable } }

/-- The query and its answer name the same request. -/
def Answers (answer tran : Tx) : Prop :=
  answer.ctx.id = tran.ctx.id ∧ answer.ctx.key = tran.ctx.key ∧ answer.sid = tran.sid

theorem answers_postResult (rc : TxResult) (tran : Tx) (error : String) :
    Answers (postResult rc tran error) tran :=
  ⟨rfl, rfl, rfl⟩

theorem answers_execute (tran : Tx) (o : Outcome) : Answers (execute tran o) tran := by
  cases o with
  | returned rc =>
      rw [execute]
      split <;> apply answers_postResult
  | _ => apply answers_postResult

/-! ## Runners -/

/-- Where the thread of a runner is: `run`, or `complete_queue` after it, with the transaction
that it has popped. -/
inductive Place where
  | check
  | drain (hand : Option Tx)
  | complete (hand : Option Tx)
  | exited
  deriving DecidableEq, Repr

def Place.hand : Place → List Tx
  | .check => []
  | .drain t => t.toList
  | .complete t => t.toList
  | .exited => []

/-- `db_runner`. -/
structure Runner where
  queue : List Tx
  stop : Bool
  place : Place
  pool : DbPool
  deriving Repr

namespace Runner

/-- A runner after `start`. -/
def start (dbs : List String) : Runner := ⟨[], false, .check, ⟨dbs, []⟩⟩

/-- `schedule`. -/
def schedule (r : Runner) (tran : Tx) : Runner := { r with queue := r.queue ++ [tran] }

/-- A step of the thread that executes nothing. -/
def move (r : Runner) : Option Runner :=
  match r.place, r.queue with
  | .check, _ => some { r with place := if r.stop then .complete none else .drain none }
  | .drain none, [] => some { r with place := .check }
  | .drain none, t :: queue => some { r with place := .drain (some t), queue := queue }
  | .complete none, [] => some { r with place := .exited }
  | .complete none, t :: queue => some { r with place := .complete (some t), queue := queue }
  | _, _ => none

/-- What a runner still has to execute. -/
def waiting (r : Runner) : List Tx := r.place.hand ++ r.queue

end Runner

/-! ## The service -/

/-- Where `on_finish` is: before `finish` of a runner, or in the join of its thread. -/
inductive Stage where
  | serving
  | finishing (i : ℕ)
  | joining (i : ℕ)
  | cleared
  deriving DecidableEq, Repr

/-- How many runners `on_finish` has told to stop. -/
def Stage.stopped : Stage → ℕ
  | .serving => 0
  | .finishing i => i
  | .joining i => i + 1
  | .cleared => 0

/-- How many runners it has joined. -/
def Stage.joined : Stage → ℕ
  | .serving => 0
  | .finishing i => i
  | .joining i => i
  | .cleared => 0

/-- A transaction that a runner has executed. -/
structure Execution where
  runner : ℕ
  tran : Tx
  cmd : Option DbCommand
  answer : Option Tx
  deriving Repr

/-- A service, with what has happened to it: the requests, the runner of each, those that came
to a runner whose thread had ended, and the answers sent. -/
structure DbService where
  runners : List Runner
  stage : Stage
  requests : List Tx
  scheduled : List (ℕ × Tx)
  late : List (ℕ × Tx)
  executed : List Execution
  sent : List Tx
  deriving Repr

namespace DbService

/-- `start_runners`. -/
def start (runnerCount : ℕ) (dbs : List String) : DbService :=
  ⟨List.replicate runnerCount (Runner.start dbs), .serving, [], [], [], [], []⟩

/-- `fail`. -/
def refuse (w : DbService) (tran : Tx) : DbService :=
  { w with requests := w.requests ++ [tran], sent := w.sent ++ [failTx tran] }

/-- `schedule` of a runner. -/
def schedule (w : DbService) (i : ℕ) (r : Runner) (tran : Tx) : DbService :=
  { w with
    runners := w.runners.set i (r.schedule tran)
    requests := w.requests ++ [tran]
    scheduled := w.scheduled ++ [(i, tran)]
    late := if r.place = .exited then w.late ++ [(i, tran)] else w.late }

/-- The runner of a request. -/
def target (w : DbService) (tran : Tx) (rand : ℕ) : ℕ :=
  if tran.ctx.key > 0 then tran.ctx.key.toNat % w.runners.length else rand % w.runners.length

/-- `on_tx`. -/
def onTx (w : DbService) (tran : Tx) (rand : ℕ) : DbService :=
  if tran.ctx.dir = 1 then w
  else if w.runners.isEmpty then w.refuse tran
  else
    match w.runners[w.target tran rand]? with
    | none => w
    | some r => w.schedule (w.target tran rand) r tran

/-- `execute_query` of a runner, which then is at `place`. -/
def executeQuery (w : DbService) (i : ℕ) (r : Runner) (tran : Tx) (place : Place)
    (prepared : Bool) (o : Outcome) : DbService :=
  { w with
    runners := w.runners.set i
      { r with place := place, pool := (r.pool.get tran.ctx.db tran.pic tran.query prepared).2 }
    executed := w.executed ++ [⟨i, tran, (r.pool.get tran.ctx.db tran.pic tran.query prepared).1,
      (r.pool.get tran.ctx.db tran.pic tran.query prepared).1.map fun _ ↦ execute tran o⟩]
    sent := w.sent ++ ((r.pool.get tran.ctx.db tran.pic tran.query prepared).1.map
      fun _ ↦ execute tran o).toList }

/-- A step of the thread of a runner. -/
def run (w : DbService) (i : ℕ) (prepared : Bool) (o : Outcome) : Option DbService :=
  match w.runners[i]? with
  | none => none
  | some r =>
      match r.place with
      | .drain (some tran) => some (w.executeQuery i r tran (.drain none) prepared o)
      | .complete (some tran) => some (w.executeQuery i r tran (.complete none) prepared o)
      | _ => r.move.map fun r' ↦ { w with runners := w.runners.set i r' }

/-- A step of `on_finish`. -/
def finish (w : DbService) : Option DbService :=
  match w.stage with
  | .serving => some { w with stage := .finishing 0 }
  | .finishing i =>
      match w.runners[i]? with
      | none => some { w with runners := [], stage := .cleared }
      | some r =>
          if r.stop then some { w with stage := .finishing (i + 1) }
          else
            some { w with
              runners := w.runners.set i { r with stop := true }
              stage := .joining i }
  | .joining i =>
      match w.runners[i]? with
      | none => none
      | some r => if r.place = .exited then some { w with stage := .finishing (i + 1) } else none
  | .cleared => none

inductive Action where
  | tx (tran : Tx) (rand : ℕ)
  | run (i : ℕ) (prepared : Bool) (o : Outcome)
  | finish
  deriving Repr

def step (w : DbService) : Action → Option DbService
  | .tx tran rand => some (w.onTx tran rand)
  | .run i prepared o => w.run i prepared o
  | .finish => w.finish

/-- What a step can do. -/
inductive Moves (w : DbService) : Action → DbService → Prop where
  | ignored {tran : Tx} {rand : ℕ} (hdir : tran.ctx.dir = 1) : Moves w (.tx tran rand) w
  | refused {tran : Tx} {rand : ℕ} (hempty : w.runners = []) :
      Moves w (.tx tran rand) (w.refuse tran)
  | scheduled {tran : Tx} {rand i : ℕ} {r : Runner} (hi : w.runners[i]? = some r)
      (hkey : 0 < tran.ctx.key → i = tran.ctx.key.toNat % w.runners.length) :
      Moves w (.tx tran rand) (w.schedule i r tran)
  | moved {i : ℕ} {prepared : Bool} {o : Outcome} {r r' : Runner} (hi : w.runners[i]? = some r)
      (hplace : r.place ≠ .exited) (hwaiting : r'.waiting = r.waiting) (hstop : r'.stop = r.stop)
      (hpool : r'.pool = r.pool) (hexited : r'.place = .exited → r'.queue = []) :
      Moves w (.run i prepared o) { w with runners := w.runners.set i r' }
  | executed {i : ℕ} {prepared : Bool} {o : Outcome} {r : Runner} {tran : Tx} {place : Place}
      (hi : w.runners[i]? = some r) (hwaiting : r.waiting = tran :: r.queue)
      (hplace : r.place ≠ .exited) (hhand : place.hand = []) (hnext : place ≠ .exited) :
      Moves w (.run i prepared o) (w.executeQuery i r tran place prepared o)
  | finishing (hstage : w.stage = .serving) :
      Moves w .finish { w with stage := .finishing 0 }
  | stopped {i : ℕ} {r : Runner} (hstage : w.stage = .finishing i) (hi : w.runners[i]? = some r) :
      Moves w .finish
        { w with runners := w.runners.set i { r with stop := true }, stage := .joining i }
  | skipped {i : ℕ} {r : Runner} (hstage : w.stage = .finishing i) (hi : w.runners[i]? = some r)
      (hstop : r.stop = true) : Moves w .finish { w with stage := .finishing (i + 1) }
  | joined {i : ℕ} {r : Runner} (hstage : w.stage = .joining i) (hi : w.runners[i]? = some r)
      (hplace : r.place = .exited) : Moves w .finish { w with stage := .finishing (i + 1) }
  | cleared {i : ℕ} (hstage : w.stage = .finishing i) (hi : w.runners[i]? = none) :
      Moves w .finish { w with runners := [], stage := .cleared }

section

variable {w w' : DbService} {a : Action} {i j n : ℕ} {r r' : Runner} {tran : Tx}

theorem move_eq_some (h : r.move = some r') :
    r.place ≠ .exited ∧ r'.waiting = r.waiting ∧ r'.stop = r.stop ∧ r'.pool = r.pool ∧
      (r'.place = .exited → r'.queue = []) := by
  obtain ⟨queue, stop, place, pool⟩ := r
  simp only [Runner.move] at h
  split at h <;> simp_all only [Option.some.injEq, reduceCtorEq]
  all_goals subst h
  · cases stop <;> simp [Runner.waiting, Place.hand]
  all_goals simp [Runner.waiting, Place.hand]

theorem run_moves {prepared : Bool} {o : Outcome} (h : w.run i prepared o = some w') :
    Moves w (.run i prepared o) w' := by
  rw [DbService.run] at h
  cases hi : w.runners[i]? with
  | none => simp [hi] at h
  | some r =>
      simp only [hi] at h
      split at h
      case h_3 =>
        obtain ⟨r', hmove, rfl⟩ := Option.map_eq_some_iff.mp h
        obtain ⟨hplace, hwaiting, hstop, hpool, hexited⟩ := move_eq_some hmove
        exact .moved hi hplace hwaiting hstop hpool hexited
      all_goals
        rename_i hplace
        cases h
        exact .executed hi (by simp [Runner.waiting, hplace, Place.hand]) (by simp [hplace]) rfl
          (by simp)

theorem finish_moves (h : w.finish = some w') : Moves w .finish w' := by
  rw [DbService.finish] at h
  cases hstage : w.stage with
  | serving =>
      simp only [hstage, Option.some.injEq] at h
      exact h ▸ .finishing hstage
  | finishing i =>
      simp only [hstage] at h
      cases hi : w.runners[i]? with
      | none =>
          simp only [hi, Option.some.injEq] at h
          exact h ▸ .cleared hstage hi
      | some r =>
          simp only [hi] at h
          split_ifs at h with hstop <;> cases h
          · exact .skipped hstage hi hstop
          · exact .stopped hstage hi
  | joining i =>
      simp only [hstage] at h
      cases hi : w.runners[i]? with
      | none => simp [hi] at h
      | some r =>
          simp only [hi] at h
          split_ifs at h with hplace
          cases h
          exact .joined hstage hi hplace
  | cleared => simp [hstage] at h

theorem onTx_moves (tran : Tx) (rand : ℕ) : Moves w (.tx tran rand) (w.onTx tran rand) := by
  rw [onTx]
  split_ifs with hdir hempty
  · exact .ignored hdir
  · exact .refused (List.isEmpty_iff.mp hempty)
  · have hpos : 0 < w.runners.length := by
      rw [List.isEmpty_iff] at hempty
      exact List.length_pos_iff.mpr hempty
    have hlt : w.target tran rand < w.runners.length := by
      rw [target]
      split_ifs <;> exact Nat.mod_lt _ hpos
    have hi := List.getElem?_eq_getElem hlt
    simp only [hi]
    refine .scheduled hi fun hkey ↦ ?_
    rw [target, if_pos hkey]

theorem step_moves (h : w.step a = some w') : Moves w a w' := by
  cases a with
  | tx tran rand =>
      cases h
      exact onTx_moves tran rand
  | run i prepared o => exact run_moves h
  | finish => exact finish_moves h

/-! ## Queues -/

/-- What of a record of transactions is of one runner. -/
def ofRunner (i : ℕ) (l : List (ℕ × Tx)) : List Tx := (l.filter fun e ↦ e.1 = i).map Prod.snd

/-- What has been executed, and by which runner. -/
def done (w : DbService) : List (ℕ × Tx) := w.executed.map fun e ↦ (e.runner, e.tran)

theorem ofRunner_append_singleton (l : List (ℕ × Tx)) (e : ℕ × Tx) :
    ofRunner i (l ++ [e]) = ofRunner i l ++ if e.1 = i then [e.2] else [] := by
  by_cases h : e.1 = i <;> simp [ofRunner, h]

theorem mem_ofRunner {l : List (ℕ × Tx)} : tran ∈ ofRunner i l ↔ (i, tran) ∈ l := by
  simp [ofRunner]

@[simp] theorem done_executeQuery {place : Place} {prepared : Bool} {o : Outcome} :
    (w.executeQuery i r tran place prepared o).done = w.done ++ [(i, tran)] := by
  simp [done, executeQuery]

/-- A runner of the service after one of them has changed. -/
theorem getElem?_set_cases {runners : List Runner} {s : Runner}
    (h : (runners.set i r')[j]? = some s) : (j = i ∧ s = r') ∨ (j ≠ i ∧ runners[j]? = some s) := by
  rw [List.getElem?_set] at h
  split_ifs at h with hij hlt
  · cases h
    exact .inl ⟨hij.symm, rfl⟩
  · exact .inr ⟨fun hji ↦ hij hji.symm, h⟩

/-- A runner has executed what it was given, but for what waits; what comes after its thread has
ended stays in the queue. -/
structure Queued (w : DbService) (i : ℕ) (r : Runner) : Prop where
  order : ofRunner i w.done ++ r.waiting = ofRunner i w.scheduled
  late : ofRunner i w.late = if r.place = .exited then r.queue else []

def Queues (w : DbService) : Prop := ∀ i r, w.runners[i]? = some r → Queued w i r

theorem Queued.of_eq {w w' : DbService} (h : Queued w i r) (hdone : w'.done = w.done)
    (hscheduled : w'.scheduled = w.scheduled) (hlate : w'.late = w.late) : Queued w' i r := by
  constructor
  · rw [hdone, hscheduled]
    exact h.order
  · rw [hlate]
    exact h.late

theorem Queued.schedule_other (h : Queued w j r) (hne : j ≠ i) :
    Queued (w.schedule i r' tran) j r := by
  have hskip : ∀ l : List (ℕ × Tx), ofRunner j (l ++ [(i, tran)]) = ofRunner j l := by
    intro l
    rw [ofRunner_append_singleton, if_neg hne.symm, List.append_nil]
  constructor
  · simp only [DbService.schedule, hskip]
    exact h.order
  · simp only [DbService.schedule, apply_ite (ofRunner j), hskip, ite_self]
    exact h.late

theorem Queued.schedule_own (h : Queued w i r) :
    Queued (w.schedule i r tran) i (r.schedule tran) := by
  have hadd : ∀ l : List (ℕ × Tx), ofRunner i (l ++ [(i, tran)]) = ofRunner i l ++ [tran] := by
    intro l
    rw [ofRunner_append_singleton, if_pos rfl]
  constructor
  · simp only [DbService.schedule, hadd, ← h.order]
    simp [done, Runner.waiting, Runner.schedule]
  · simp only [DbService.schedule, Runner.schedule, apply_ite (ofRunner i), hadd, h.late]
    by_cases hplace : r.place = .exited <;> simp [hplace]

theorem Queued.execute_other {place : Place} {prepared : Bool} {o : Outcome} (h : Queued w j r)
    (hne : j ≠ i) : Queued (w.executeQuery i r' tran place prepared o) j r := by
  constructor
  · rw [done_executeQuery, ofRunner_append_singleton, if_neg hne.symm, List.append_nil]
    exact h.order
  · exact h.late

theorem Queues.moves (h : Queues w) (hmoves : Moves w a w') : Queues w' := by
  intro j s hj
  cases hmoves with
  | ignored => exact h j s hj
  | refused => exact (h j s hj).of_eq rfl rfl rfl
  | scheduled hi =>
      rcases getElem?_set_cases hj with ⟨rfl, rfl⟩ | ⟨hne, hj⟩
      · exact (h _ _ hi).schedule_own
      · exact (h j s hj).schedule_other hne
  | moved hi hplace hwaiting hstop hpool hexited =>
      rcases getElem?_set_cases hj with ⟨rfl, rfl⟩ | ⟨hne, hj⟩
      · constructor
        · rw [hwaiting]
          exact (h _ _ hi).order
        · have hlate := (h _ _ hi).late
          rw [if_neg hplace] at hlate
          split_ifs with hend
          · rw [hexited hend]
            exact hlate
          · exact hlate
      · exact (h j s hj).of_eq rfl rfl rfl
  | executed hi hwaiting hplace hhand hnext =>
      rcases getElem?_set_cases hj with ⟨rfl, rfl⟩ | ⟨hne, hj⟩
      · constructor
        · have horder := (h _ _ hi).order
          rw [done_executeQuery, ofRunner_append_singleton, if_pos rfl, Runner.waiting, hhand,
            List.nil_append, List.append_assoc, List.singleton_append, ← hwaiting]
          exact horder
        · have hlate := (h _ _ hi).late
          rw [if_neg hplace] at hlate
          rw [if_neg hnext]
          exact hlate
      · exact (h j s hj).execute_other hne
  | finishing => exact (h j s hj).of_eq rfl rfl rfl
  | stopped hstage hi =>
      rcases getElem?_set_cases hj with ⟨rfl, rfl⟩ | ⟨hne, hj⟩
      · exact ⟨(h _ _ hi).order, (h _ _ hi).late⟩
      · exact (h j s hj).of_eq rfl rfl rfl
  | skipped => exact (h j s hj).of_eq rfl rfl rfl
  | joined => exact (h j s hj).of_eq rfl rfl rfl
  | cleared => simp at hj

/-! ## Stopping -/

/-- `n` runners are stopped and joined one after the other. -/
structure Stages (n : ℕ) (w : DbService) : Prop where
  length : w.stage ≠ .cleared → w.runners.length = n
  empty : w.stage = .cleared → w.runners = []
  stop : ∀ i r, w.runners[i]? = some r → r.stop = true → i < w.stage.stopped
  exited : ∀ i r, w.runners[i]? = some r → i < w.stage.joined → r.place = .exited

theorem Stages.set (h : Stages n w) (hi : w.runners[i]? = some r)
    (hstop : r'.stop = r.stop) (hplace : r.place = .exited → r'.place = .exited)
    (hrunners : w'.runners = w.runners.set i r') (hstage : w'.stage = w.stage) : Stages n w' := by
  constructor
  · intro hnot
    rw [hrunners, List.length_set]
    exact h.length (hstage ▸ hnot)
  · intro hcleared
    rw [hrunners, h.empty (hstage ▸ hcleared), List.set_nil]
  · intro j s hj
    rw [hrunners] at hj
    rw [hstage]
    rcases getElem?_set_cases hj with ⟨rfl, rfl⟩ | ⟨-, hj⟩
    · rw [hstop]
      exact h.stop _ _ hi
    · exact h.stop j s hj
  · intro j s hj hlt
    rw [hrunners] at hj
    rw [hstage] at hlt
    rcases getElem?_set_cases hj with ⟨rfl, rfl⟩ | ⟨-, hj⟩
    · exact hplace (h.exited _ _ hi hlt)
    · exact h.exited j s hj hlt

theorem Stages.moves (h : Stages n w) (hmoves : Moves w a w') : Stages n w' := by
  cases hmoves with
  | ignored => exact h
  | refused => exact ⟨h.length, h.empty, h.stop, h.exited⟩
  | scheduled hi => exact h.set hi (by rfl) (by exact id) rfl rfl
  | moved hi hplace hwaiting hstop =>
      exact h.set hi hstop (fun hexited ↦ absurd hexited hplace) rfl rfl
  | executed hi hwaiting hplace =>
      exact h.set hi (by rfl) (fun hexited ↦ absurd hexited hplace) rfl rfl
  | finishing hstage =>
      have hnot : w.stage ≠ .cleared := by simp [hstage]
      refine ⟨fun _ ↦ h.length hnot, by simp, fun i r hi hstop ↦ ?_, fun i r _ hlt ↦ ?_⟩
      · exact absurd (h.stop i r hi hstop) (by simp [hstage, Stage.stopped])
      · exact absurd hlt (Nat.not_lt_zero i)
  | stopped hstage hi =>
      have hnot : w.stage ≠ .cleared := by simp [hstage]
      refine ⟨fun _ ↦ ?_, by simp, fun j s hj hstop ↦ ?_, fun j s hj hlt ↦ ?_⟩
      · rw [List.length_set]
        exact h.length hnot
      · rcases getElem?_set_cases hj with ⟨rfl, rfl⟩ | ⟨-, hj⟩
        · exact Nat.lt_succ_self _
        · have hlt := h.stop j s hj hstop
          rw [hstage] at hlt
          exact Nat.lt_succ_of_lt hlt
      · rcases getElem?_set_cases hj with ⟨rfl, rfl⟩ | ⟨-, hj⟩
        · exact absurd hlt (Nat.lt_irrefl _)
        · exact h.exited j s hj (by rw [hstage]; exact hlt)
  | skipped hstage hi hstop =>
      -- only `on_finish` sets the flag, and it has not come to this runner
      have hlt := h.stop _ _ hi hstop
      rw [hstage] at hlt
      exact absurd hlt (Nat.lt_irrefl _)
  | @joined i r hstage hi hplace =>
      have hnot : w.stage ≠ .cleared := by simp [hstage]
      refine ⟨fun _ ↦ h.length hnot, by simp, fun j s hj hstop ↦ ?_, fun j s hj hlt ↦ ?_⟩
      · have hlt := h.stop j s hj hstop
        rw [hstage] at hlt
        exact hlt
      · rcases Nat.lt_succ_iff_lt_or_eq.mp hlt with hlt | rfl
        · exact h.exited j s hj (by rw [hstage]; exact hlt)
        · rw [hi] at hj
          cases hj
          exact hplace
  | cleared => exact ⟨fun hnot ↦ absurd rfl hnot, fun _ ↦ rfl, by simp, by simp⟩

/-- Each runner has executed in order what it was given before its thread ended. -/
def Ends (n : ℕ) (w : DbService) : Prop :=
  w.stage = .cleared → ∀ i < n, ofRunner i w.done ++ ofRunner i w.late = ofRunner i w.scheduled

theorem Ends.moves (h : Ends n w) (hqueues : Queues w) (hstages : Stages n w)
    (hmoves : Moves w a w') : Ends n w' := by
  have hnone : ∀ (i : ℕ) (r : Runner), w.stage = .cleared → w.runners[i]? ≠ some r := by
    intro i r hcleared
    rw [hstages.empty hcleared]
    simp
  cases hmoves with
  | ignored => exact h
  | refused => exact h
  | scheduled hi => exact fun hcleared ↦ absurd hi (hnone _ _ hcleared)
  | moved hi => exact fun hcleared ↦ absurd hi (hnone _ _ hcleared)
  | executed hi => exact fun hcleared ↦ absurd hi (hnone _ _ hcleared)
  | finishing =>
      intro hcleared
      cases hcleared
  | stopped =>
      intro hcleared
      cases hcleared
  | skipped =>
      intro hcleared
      cases hcleared
  | joined =>
      intro hcleared
      cases hcleared
  | cleared hstage hi =>
      intro _ j hj
      have hlength := hstages.length (by simp [hstage])
      have hpast : n ≤ _ := hlength ▸ List.getElem?_eq_none_iff.mp hi
      have hget := List.getElem?_eq_getElem (hlength.symm ▸ hj : j < w.runners.length)
      have hexited := hstages.exited j _ hget (by rw [hstage]; exact Nat.lt_of_lt_of_le hj hpast)
      have hqueued := hqueues j _ hget
      have hlate := hqueued.late
      rw [if_pos hexited] at hlate
      have horder := hqueued.order
      rw [Runner.waiting, hexited, Place.hand, List.nil_append, ← hlate] at horder
      exact horder

/-! ## Keys -/

/-- A request with a key went to the runner of the key, and what is done was given to the runner
that did it. -/
structure Keys (n : ℕ) (w : DbService) : Prop where
  runner : ∀ e ∈ w.scheduled, 0 < e.2.ctx.key → e.1 = e.2.ctx.key.toNat % n
  done : ∀ e ∈ w.done, e ∈ w.scheduled
  lt : ∀ e ∈ w.scheduled, e.1 < n

theorem Keys.moves (h : Keys n w) (hqueues : Queues w) (hstages : Stages n w)
    (hmoves : Moves w a w') : Keys n w' := by
  cases hmoves with
  | @scheduled tran rand i r hi hkey =>
      have hnot : w.stage ≠ .cleared := by
        intro hcleared
        rw [hstages.empty hcleared] at hi
        simp at hi
      rw [hstages.length hnot] at hkey
      have hlt : i < n := by
        rw [← hstages.length hnot]
        exact (List.getElem?_eq_some_iff.mp hi).1
      refine ⟨?_, fun e he ↦ List.mem_append_left _ (h.done e he), ?_⟩
      · rintro e he
        rcases List.mem_append.mp he with he | he
        · exact h.runner e he
        · rw [List.mem_singleton.mp he]
          exact hkey
      · rintro e he
        rcases List.mem_append.mp he with he | he
        · exact h.lt e he
        · rw [List.mem_singleton.mp he]
          exact hlt
  | @executed i prepared o r tran place hi hwaiting =>
      refine ⟨h.runner, ?_, h.lt⟩
      rw [done_executeQuery]
      intro e he
      rcases List.mem_append.mp he with he | he
      · exact h.done e he
      · rw [List.mem_singleton.mp he]
        have hmem : tran ∈ ofRunner i w.done ++ r.waiting := by simp [hwaiting]
        rw [(hqueues i r hi).order] at hmem
        exact mem_ofRunner.mp hmem
  | _ => exact ⟨h.runner, h.done, h.lt⟩

/-! ## Answers -/

/-- The answers of a service: one to each execution with a command, and one to each request that
found no runners, which come last. -/
structure Answered (w : DbService) : Prop where
  sent : ∃ refused, w.requests = w.scheduled.map Prod.snd ++ refused ∧
    w.sent = w.executed.filterMap Execution.answer ++ refused.map failTx ∧
      (refused ≠ [] → w.runners = [])
  answers : ∀ e ∈ w.executed, ∀ answer ∈ e.answer, Answers answer e.tran

/-- A service that still has runners has refused nothing. -/
theorem Answered.of_runner (h : Answered w) (hi : w.runners[i]? = some r) :
    w.requests = w.scheduled.map Prod.snd ∧
      w.sent = w.executed.filterMap Execution.answer := by
  obtain ⟨refused, hrequests, hsent, hempty⟩ := h.sent
  cases refused with
  | nil => exact ⟨by simpa using hrequests, by simpa using hsent⟩
  | cons t refused =>
      rw [hempty (List.cons_ne_nil t refused)] at hi
      simp at hi

theorem Answered.moves (h : Answered w) (hmoves : Moves w a w') : Answered w' := by
  cases hmoves with
  | ignored => exact h
  | @refused tran rand hempty =>
      obtain ⟨refused, hrequests, hsent, -⟩ := h.sent
      refine ⟨⟨refused ++ [tran], ?_, ?_, fun _ ↦ hempty⟩, h.answers⟩
      · rw [refuse, hrequests, List.append_assoc]
      · rw [refuse, hsent, List.append_assoc, List.map_append, List.map_singleton]
  | scheduled hi =>
      obtain ⟨hrequests, hsent⟩ := h.of_runner hi
      refine ⟨⟨[], ?_, ?_, fun hne ↦ absurd rfl hne⟩, h.answers⟩
      · simp [DbService.schedule, hrequests]
      · simp [DbService.schedule, hsent]
  | moved hi =>
      obtain ⟨hrequests, hsent⟩ := h.of_runner hi
      exact ⟨⟨[], by simpa using hrequests, by simpa using hsent, fun hne ↦ absurd rfl hne⟩,
        h.answers⟩
  | @executed i prepared o r tran place hi =>
      obtain ⟨hrequests, hsent⟩ := h.of_runner hi
      refine ⟨⟨[], ?_, ?_, fun hne ↦ absurd rfl hne⟩, ?_⟩
      · simp [executeQuery, hrequests]
      · simp only [executeQuery, hsent, List.filterMap_append, List.map_nil, List.append_nil]
        cases (r.pool.get tran.ctx.db tran.pic tran.query prepared).1 <;> rfl
      · intro e he answer hanswer
        rcases List.mem_append.mp he with he | he
        · exact h.answers e he answer hanswer
        · rw [List.mem_singleton.mp he] at hanswer ⊢
          obtain ⟨cmd, -, rfl⟩ := Option.map_eq_some_iff.mp hanswer
          exact answers_execute tran o
  | stopped hstage hi =>
      obtain ⟨hrequests, hsent⟩ := h.of_runner hi
      exact ⟨⟨[], by simpa using hrequests, by simpa using hsent, fun hne ↦ absurd rfl hne⟩,
        h.answers⟩
  | cleared =>
      obtain ⟨refused, hrequests, hsent, -⟩ := h.sent
      exact ⟨⟨refused, hrequests, hsent, fun _ ↦ rfl⟩, h.answers⟩
  | _ => exact ⟨h.sent, h.answers⟩

/-! ## Runs -/

structure Inv (n : ℕ) (w : DbService) : Prop where
  queues : Queues w
  stages : Stages n w
  ends : Ends n w
  keys : Keys n w
  answered : Answered w

theorem Inv.step (h : Inv n w) (hstep : w.step a = some w') : Inv n w' where
  queues := h.queues.moves (step_moves hstep)
  stages := h.stages.moves (step_moves hstep)
  ends := h.ends.moves h.queues h.stages (step_moves hstep)
  keys := h.keys.moves h.queues h.stages (step_moves hstep)
  answered := h.answered.moves (step_moves hstep)

theorem inv_start (n : ℕ) (dbs : List String) : Inv n (start n dbs) := by
  have hget : ∀ (i : ℕ) (r : Runner), (start n dbs).runners[i]? = some r →
      r = Runner.start dbs := by
    intro i r hi
    exact List.eq_of_mem_replicate (List.mem_of_getElem? hi)
  constructor
  · intro i r hi
    rw [hget i r hi]
    exact ⟨rfl, rfl⟩
  · refine ⟨fun _ ↦ List.length_replicate, by simp [start], fun i r hi hstop ↦ ?_,
      fun i r _ hlt ↦ absurd hlt (Nat.not_lt_zero i)⟩
    rw [hget i r hi] at hstop
    cases hstop
  · intro hcleared
    cases hcleared
  · exact ⟨by simp [start], by simp [start, done], by simp [start]⟩
  · exact ⟨⟨[], rfl, rfl, fun hne ↦ absurd rfl hne⟩, by simp [start]⟩

theorem Inv.of_reaches {ok : DbService → Action → Prop} {dbs : List String}
    (h : Reaches DbService.step ok (start n dbs) w) : Inv n w :=
  h.invariant (inv_start n dbs) fun _ _ _ hinv _ hstep ↦ hinv.step hstep

/-! ## Order by key -/

/-- The transactions of a key. -/
def withKey (k : UInt64) (l : List Tx) : List Tx := l.filter fun t ↦ t.ctx.key = k

theorem withKey_map_snd {k : UInt64} {l : List (ℕ × Tx)}
    (h : ∀ e ∈ l, e.2.ctx.key = k → e.1 = i) :
    withKey k (l.map Prod.snd) = withKey k (ofRunner i l) := by
  induction l with
  | nil => rfl
  | cons e l ih =>
      have hrest := ih fun e' he' ↦ h e' (List.mem_cons_of_mem e he')
      have hfirst := h e List.mem_cons_self
      simp only [withKey, ofRunner, List.map_cons] at hrest hfirst ⊢
      by_cases hkey : e.2.ctx.key = k
      · simp [hkey, hfirst hkey, hrest]
      · by_cases hi : e.1 = i <;> simp [hkey, hi, hrest]

theorem withKey_append (k : UInt64) (l l' : List Tx) :
    withKey k (l ++ l') = withKey k l ++ withKey k l' :=
  List.filter_append l l'

theorem Inv.done_prefix (h : Inv n w) (i : ℕ) :
    ofRunner i w.done <+: ofRunner i w.scheduled := by
  rcases Nat.lt_or_ge i n with hi | hi
  · by_cases hcleared : w.stage = .cleared
    · exact ⟨_, h.ends hcleared i hi⟩
    · have hlt : i < w.runners.length := h.stages.length hcleared ▸ hi
      exact ⟨_, (h.queues i _ (List.getElem?_eq_getElem hlt)).order⟩
  · have hnone : ofRunner i w.done = [] := by
      refine List.eq_nil_iff_forall_not_mem.mpr fun t ht ↦ ?_
      have hlt := h.keys.lt _ (h.keys.done _ (mem_ofRunner.mp ht))
      exact absurd hlt (Nat.not_lt.mpr hi)
    rw [hnone]
    exact List.nil_prefix

/-- The requests of a key are executed in the order in which they were given to its runner. -/
theorem Inv.executed_prefix (h : Inv n w) {k : UInt64} (hk : 0 < k) :
    withKey k (w.executed.map Execution.tran) <+: withKey k (w.scheduled.map Prod.snd) := by
  have hrunner : ∀ e ∈ w.scheduled, e.2.ctx.key = k → e.1 = k.toNat % n := by
    intro e he hkey
    rw [h.keys.runner e he (hkey ▸ hk), hkey]
  have hexecuted : w.executed.map Execution.tran = w.done.map Prod.snd := by simp [done]
  rw [hexecuted, withKey_map_snd hrunner,
    withKey_map_snd fun e he ↦ hrunner e (h.keys.done e he)]
  exact (h.done_prefix (k.toNat % n)).filter _

theorem withKey_answers_sublist {k : UInt64} {executed : List Execution}
    (h : ∀ e ∈ executed, ∀ answer ∈ e.answer, Answers answer e.tran) :
    List.Sublist ((withKey k (executed.filterMap Execution.answer)).map fun t ↦ t.ctx.id)
      ((withKey k (executed.map Execution.tran)).map fun t ↦ t.ctx.id) := by
  induction executed with
  | nil => exact List.Sublist.slnil
  | cons e executed ih =>
      have hrest := ih fun e' he' ↦ h e' (List.mem_cons_of_mem e he')
      have hskip : List.Sublist ((withKey k (executed.map Execution.tran)).map fun t ↦ t.ctx.id)
          ((withKey k ((e :: executed).map Execution.tran)).map fun t ↦ t.ctx.id) :=
        (List.Sublist.filter _ (List.sublist_cons_self _ _)).map _
      cases hanswer : e.answer with
      | none =>
          rw [List.filterMap_cons_none hanswer]
          exact hrest.trans hskip
      | some answer =>
          obtain ⟨hid, hkey, -⟩ := h e List.mem_cons_self answer hanswer
          rw [List.filterMap_cons_some hanswer]
          simp only [withKey, List.map_cons, List.filter_cons, hkey] at hrest ⊢
          split
          · rw [List.map_cons, List.map_cons, hid]
            exact hrest.cons_cons _
          · exact hrest

/-- The answers to the requests of a key come in the order of the requests, at most one to
each. -/
theorem answers_in_order {n : ℕ} {dbs : List String} {w : DbService} {k : UInt64}
    (h : Reaches DbService.step (fun _ _ ↦ True) (start n dbs) w) (hk : 0 < k) :
    List.Sublist ((withKey k w.sent).map fun t ↦ t.ctx.id)
      ((withKey k w.requests).map fun t ↦ t.ctx.id) := by
  have hinv := Inv.of_reaches h
  obtain ⟨refused, hrequests, hsent, -⟩ := hinv.answered.sent
  have hexecuted : List.Sublist
      ((withKey k (w.executed.filterMap Execution.answer)).map fun t ↦ t.ctx.id)
      ((withKey k (w.scheduled.map Prod.snd)).map fun t ↦ t.ctx.id) :=
    (withKey_answers_sublist hinv.answered.answers).trans
      ((hinv.executed_prefix hk).sublist.map _)
  have hrefused : (withKey k (refused.map failTx)).map (fun t ↦ t.ctx.id) =
      (withKey k refused).map fun t ↦ t.ctx.id := by
    simp only [withKey, List.filter_map, List.map_map]
    rfl
  rw [hrequests, hsent, withKey_append, withKey_append, List.map_append, List.map_append, hrefused]
  exact hexecuted.append (List.Sublist.refl _)

/-- A request without a session. -/
def request (id db : String) (key : UInt64) (type : UInt16) (query : String) : Tx :=
  ⟨Topic.make 3 5 type, 0, ⟨0, id, db, key, 0, "", "", .success⟩, query⟩

theorem answers_in_order_two : ∃ w,
    Reaches DbService.step (fun _ _ ↦ True) (start 2 ["game"]) w ∧
      (withKey 7 w.sent).map (fun t ↦ t.ctx.id) = ["a", "b"] ∧
        List.Sublist ((withKey 7 w.sent).map fun t ↦ t.ctx.id)
          ((withKey 7 w.requests).map fun t ↦ t.ctx.id) := by
  obtain ⟨w, hreach, hw⟩ := @exists_reaches _ _ DbService.step (fun _ _ ↦ True)
    (start 2 ["game"])
    [.tx (request "a" "game" 7 1 "call login") 0, .tx (request "x" "game" 8 1 "call login") 0,
      .tx (request "b" "game" 7 2 "call save") 0,
      .run 1 true (.returned .success), .run 1 true (.returned .success),
      .run 1 true (.returned .success), .run 0 true (.returned .success),
      .run 1 true (.returned .success), .run 1 true (.databaseError "lost")]
    (fun w ↦ (withKey 7 w.sent).map (fun t ↦ t.ctx.id) = ["a", "b"])
    (fun _ _ _ ↦ trivial) (by decide)
  exact ⟨w, hreach, of_decide_eq_true hw, answers_in_order hreach (by decide)⟩

/-- When `on_finish` is through, each runner has executed once and in order what it was given,
but for what it was given after its thread had ended. -/
theorem finish_executes_all {n : ℕ} {dbs : List String} {w : DbService}
    (h : Reaches DbService.step (fun _ _ ↦ True) (start n dbs) w) (hcleared : w.stage = .cleared) :
    ∀ i < n, ofRunner i w.done ++ ofRunner i w.late = ofRunner i w.scheduled :=
  (Inv.of_reaches h).ends hcleared

theorem finish_executes_all_one : ∃ w,
    Reaches DbService.step (fun _ _ ↦ True) (start 1 ["game"]) w ∧ w.stage = .cleared ∧
      w.late.length = 1 ∧
        ∀ i < 1, ofRunner i w.done ++ ofRunner i w.late = ofRunner i w.scheduled := by
  obtain ⟨w, hreach, hw⟩ := @exists_reaches _ _ DbService.step (fun _ _ ↦ True)
    (start 1 ["game"])
    [.tx (request "a" "game" 0 1 "call login") 5, .finish, .finish,
      .run 0 true (.returned .success), .run 0 true (.returned .success),
      .run 0 true (.returned .success), .run 0 true (.returned .success),
      .tx (request "b" "game" 0 1 "call login") 3, .finish, .finish]
    (fun w ↦ w.stage = .cleared ∧ w.late.length = 1)
    (fun _ _ _ ↦ trivial) (by decide)
  have hend := of_decide_eq_true hw
  exact ⟨w, hreach, hend.1, hend.2, finish_executes_all hreach hend.1⟩

/-! ## One database -/

/-- The action brings no request for another database. -/
def Names (d : String) : Action → Prop
  | .tx tran _ => tran.ctx.db = d
  | _ => True

instance (d : String) : DecidablePred (Names d)
  | .tx tran _ => inferInstanceAs (Decidable (tran.ctx.db = d))
  | .run _ _ _ => .isTrue trivial
  | .finish => .isTrue trivial

/-- The pool has at most one command, and it is of the database `d`. -/
def Single (d : String) (p : DbPool) : Prop :=
  p.cmds = [] ∨ ∃ e, p.cmds = [e] ∧ e.1.db = d

theorem Single.get {d query : String} {p : DbPool} {pic : Topic} {prepared : Bool}
    (h : Single d p) :
    Single d (p.get d pic query prepared).2 ∧
      (∀ e, p.cmds = [e] → (p.get d pic query prepared).2.cmds = [e]) ∧
        ∀ c ∈ (p.get d pic query prepared).1,
          ∃ key, (p.get d pic query prepared).2.cmds = [(key, c)] := by
  rcases h with hnil | ⟨e, he, hd⟩
  · have hfind : findSame CmdKey.less p.cmds ⟨d, pic⟩ = none := by
      rw [hnil]
      rfl
    simp only [DbPool.get, hfind]
    split
    · refine ⟨.inr ⟨(⟨d, pic⟩, ⟨d, pic, query⟩), by simp [hnil], rfl⟩, by simp [hnil], ?_⟩
      intro c hc
      cases hc
      exact ⟨⟨d, pic⟩, by simp [hnil]⟩
    · exact ⟨.inl hnil, fun _ h ↦ h, by simp⟩
  · have hsame : Same CmdKey.less e.1 ⟨d, pic⟩ := by
      rw [Same, CmdKey.less, CmdKey.less, hd]
      exact ⟨fun h ↦ String.lt_irrefl d h.1, fun h ↦ String.lt_irrefl d h.1⟩
    have hfind : findSame CmdKey.less p.cmds ⟨d, pic⟩ = some e.2 := by
      simp [findSame, he, hsame]
    simp only [DbPool.get, hfind]
    refine ⟨.inr ⟨e, he, hd⟩, fun _ h ↦ h, fun c hc ↦ ?_⟩
    cases hc
    exact ⟨e.1, he⟩

/-- Every runner has one command, with which it has executed what it could execute. -/
structure OneCommand (d : String) (w : DbService) : Prop where
  db : ∀ e ∈ w.scheduled, e.2.ctx.db = d
  single : ∀ (i : ℕ) (r : Runner), w.runners[i]? = some r → Single d r.pool
  used : ∀ (i : ℕ) (r : Runner), w.runners[i]? = some r → ∀ e ∈ w.executed, e.runner = i →
    ∀ c ∈ e.cmd, ∃ key, r.pool.cmds = [(key, c)]
  same : ∀ e ∈ w.executed, ∀ e' ∈ w.executed, e.runner = e'.runner →
    ∀ c ∈ e.cmd, ∀ c' ∈ e'.cmd, c = c'

theorem OneCommand.set {d : String} (h : OneCommand d w) (hi : w.runners[i]? = some r)
    (hpool : r'.pool = r.pool) (hdb : ∀ e ∈ w'.scheduled, e.2.ctx.db = d)
    (hrunners : w'.runners = w.runners.set i r') (hexecuted : w'.executed = w.executed) :
    OneCommand d w' := by
  refine ⟨hdb, fun j s hj ↦ ?_, fun j s hj ↦ ?_, hexecuted ▸ h.same⟩
  · rw [hrunners] at hj
    rcases getElem?_set_cases hj with ⟨rfl, rfl⟩ | ⟨-, hj⟩
    · rw [hpool]
      exact h.single _ _ hi
    · exact h.single j s hj
  · rw [hrunners] at hj
    rw [hexecuted]
    rcases getElem?_set_cases hj with ⟨rfl, rfl⟩ | ⟨-, hj⟩
    · rw [hpool]
      exact h.used _ _ hi
    · exact h.used j s hj

theorem OneCommand.execute {d : String} {place : Place} {prepared : Bool} {o : Outcome}
    (h : OneCommand d w) (hi : w.runners[i]? = some r) (hdb : tran.ctx.db = d) :
    OneCommand d (w.executeQuery i r tran place prepared o) := by
  subst hdb
  obtain ⟨hsingle, hkept, hown⟩ :=
    @Single.get _ tran.query r.pool tran.pic prepared (h.single i r hi)
  -- an earlier command of the runner is still the one of its pool
  have hearlier : ∀ e ∈ w.executed, e.runner = i → ∀ c ∈ e.cmd,
      ∃ key, (r.pool.get tran.ctx.db tran.pic tran.query prepared).2.cmds = [(key, c)] := by
    intro e he hrunner c hc
    obtain ⟨key, hkey⟩ := h.used i r hi e he hrunner c hc
    exact ⟨key, hkept _ hkey⟩
  have hagree : ∀ c c', (∃ key, (r.pool.get tran.ctx.db tran.pic tran.query prepared).2.cmds =
      [(key, c)]) → (∃ key, (r.pool.get tran.ctx.db tran.pic tran.query prepared).2.cmds =
        [(key, c')]) → c = c' := by
    rintro c c' ⟨key, hkey⟩ ⟨key', hkey'⟩
    rw [hkey] at hkey'
    cases hkey'
    rfl
  refine ⟨h.db, fun j s hj ↦ ?_, fun j s hj e he hrunner c hc ↦ ?_,
    fun e he e' he' hrunner c hc c' hc' ↦ ?_⟩
  · rcases getElem?_set_cases hj with ⟨rfl, rfl⟩ | ⟨-, hj⟩
    · exact hsingle
    · exact h.single j s hj
  · rcases getElem?_set_cases hj with ⟨rfl, rfl⟩ | ⟨hne, hj⟩
    · rcases List.mem_append.mp he with he | he
      · exact hearlier e he hrunner c hc
      · rw [List.mem_singleton.mp he] at hc
        exact hown c hc
    · rcases List.mem_append.mp he with he | he
      · exact h.used j s hj e he hrunner c hc
      · rw [List.mem_singleton.mp he] at hrunner
        exact absurd hrunner.symm hne
  · rcases List.mem_append.mp he with he | he <;> rcases List.mem_append.mp he' with he' | he'
    · exact h.same e he e' he' hrunner c hc c' hc'
    · rw [List.mem_singleton.mp he'] at hrunner hc'
      exact hagree c c' (hearlier e he hrunner c hc) (hown c' hc')
    · rw [List.mem_singleton.mp he] at hrunner hc
      exact hagree c c' (hown c hc) (hearlier e' he' hrunner.symm c' hc')
    · rw [List.mem_singleton.mp he] at hc
      rw [List.mem_singleton.mp he'] at hc'
      exact hagree c c' (hown c hc) (hown c' hc')

theorem OneCommand.moves {d : String} (h : OneCommand d w) (hqueues : Queues w)
    (ha : Names d a) (hmoves : Moves w a w') : OneCommand d w' := by
  cases hmoves with
  | @scheduled tran rand i r hi =>
      refine h.set hi (by rfl) ?_ rfl rfl
      intro e he
      rcases List.mem_append.mp he with he | he
      · exact h.db e he
      · rw [List.mem_singleton.mp he]
        exact ha
  | moved hi hplace hwaiting hstop hpool => exact h.set hi hpool h.db rfl rfl
  | @executed i prepared o r tran place hi hwaiting =>
      refine h.execute hi ?_
      have hmem : tran ∈ ofRunner i w.done ++ r.waiting := by simp [hwaiting]
      rw [(hqueues i r hi).order] at hmem
      exact h.db _ (mem_ofRunner.mp hmem)
  | stopped hstage hi => exact h.set hi (by rfl) h.db rfl rfl
  | cleared => exact ⟨h.db, by simp, by simp, h.same⟩
  | _ => exact ⟨h.db, h.single, h.used, h.same⟩

/-- While all requests name one database, a runner executes all of them with one statement,
whatever their topics and queries. -/
theorem one_statement {n : ℕ} {dbs : List String} {d : String} {w : DbService}
    (h : Reaches DbService.step (fun _ a ↦ Names d a) (start n dbs) w) :
    ∀ e ∈ w.executed, ∀ e' ∈ w.executed, e.runner = e'.runner →
      ∀ c ∈ e.cmd, ∀ c' ∈ e'.cmd, c = c' := by
  have hinv : Inv n w ∧ OneCommand d w := by
    refine @Reaches.invariant _ _ _ _ (fun w ↦ Inv n w ∧ OneCommand d w) _ _ h
      ⟨inv_start n dbs, ?_⟩ ?_
    · refine ⟨by simp [start], fun i r hi ↦ ?_, by simp [start], by simp [start]⟩
      rw [List.eq_of_mem_replicate (List.mem_of_getElem? hi)]
      exact .inl rfl
    · rintro s a s' ⟨hinv, hone⟩ ha hstep
      exact ⟨hinv.step hstep, hone.moves hinv.queues ha (step_moves hstep)⟩
  exact hinv.2.same

theorem one_statement_two_topics : ∃ w,
    Reaches DbService.step (fun _ a ↦ Names "game" a) (start 1 ["game"]) w ∧
      (w.executed.map fun e ↦ (e.tran.query, e.cmd.map DbCommand.query)) =
        [("call login", some "call login"), ("call save", some "call login")] ∧
      ∀ e ∈ w.executed, ∀ e' ∈ w.executed, e.runner = e'.runner →
        ∀ c ∈ e.cmd, ∀ c' ∈ e'.cmd, c = c' := by
  obtain ⟨w, hreach, hw⟩ := @exists_reaches_checked _ _ DbService.step
    (fun _ a ↦ Names "game" a) (start 1 ["game"])
    [.tx (request "a" "game" 0 1 "call login") 0, .tx (request "b" "game" 0 2 "call save") 0,
      .run 0 true (.returned .success), .run 0 true (.returned .success),
      .run 0 true (.returned .success), .run 0 true (.returned .success),
      .run 0 true (.returned .success)]
    (fun _ a ↦ decide (Names "game" a))
    (fun w ↦ (w.executed.map fun e ↦ (e.tran.query, e.cmd.map DbCommand.query)) =
      [("call login", some "call login"), ("call save", some "call login")])
    (fun _ _ h ↦ of_decide_eq_true h) (by decide)
  exact ⟨w, hreach, of_decide_eq_true hw, one_statement hreach⟩

end

end DbService

end WiseKernel.Server
