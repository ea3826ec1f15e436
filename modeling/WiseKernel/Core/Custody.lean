import WiseKernel.Core.TaskScheduler

/-!
# Custody of tasks

What the scheduler is for, without loops and stop flags: tasks lie in queues,
holders take them and do one step after the other with them, and the application
writes their states.  The runners and the thread of `schedule` are the holders.
-/

namespace WiseKernel.Core.Task

open WiseKernel.Lib

variable {A T : Type}

/-- Tasks, queues, and what each holder of `A` does with the task it holds. -/
@[ext]
structure Custody (A T : Type) where
  task : T → Task
  queue : Queue → List T
  stage : A → Option (Phase × T)
  added : List T
  retired : List (T × Reason)
  trace : List (T × Note)

/-- The phase in which a holder takes a task. -/
inductive Entry
  | check | hand | test
  deriving DecidableEq, Repr

def Entry.phase : Entry → Phase
  | .check => .check
  | .hand => .hand
  | .test => .testStarted

inductive Move (A T : Type)
  | add (t : T)
  | take (a : A) (q : Queue) (e : Entry)
  | work (a : A) (c : Choice)
  | write (t : T) (st : Status)
  | priority (t : T) (p : Priority)

namespace Custody

variable [DecidableEq A] [DecidableEq T]

def setState (s : Custody A T) (t : T) (st : Status) : Custody A T :=
  { s with task := Function.update s.task t { s.task t with state := st } }

def emit (s : Custody A T) (t : T) (n : Note) : Custody A T :=
  { s with trace := s.trace ++ [(t, n)] }

def setQueue (s : Custody A T) (q : Queue) (l : List T) : Custody A T :=
  { s with queue := Function.update s.queue q l }

def act (s : Custody A T) (t : T) : Outcome → Custody A T
  | .go _ => s
  | .write st _ => if st = .finished then (s.setState t st).emit t .finished else s.setState t st
  | .emit n _ => s.emit t n
  | .put q _ => s.setQueue q (s.queue q ++ [t])
  | .retire r _ => { s with retired := s.retired ++ [(t, r)] }
  | .thrown => { s with retired := s.retired ++ [(t, .threw)] }

def setStage (s : Custody A T) (a : A) (w : Option (Phase × T)) : Custody A T :=
  { s with stage := Function.update s.stage a w }

def step (s : Custody A T) : Move A T → Option (Custody A T)
  | .add t =>
      if t ∈ s.added then none
      else some { s.setQueue .run (s.queue .run ++ [t]) with added := s.added ++ [t] }
  | .take a q e =>
      match s.stage a, s.queue q with
      | none, t :: rest => some ((s.setQueue q rest).setStage a (some (e.phase, t)))
      | _, _ => none
  | .work a c =>
      match s.stage a with
      | none => none
      | some (φ, t) =>
          match φ.next (s.task t) c with
          | none => none
          | some o => some ((s.act t o).setStage a (o.stage t))
  | .write t st =>
      some (if st = .cancelled then (s.setState t st).emit t .cancelled else s.setState t st)
  | .priority t p =>
      some { s with task := Function.update s.task t { s.task t with priority := p } }

def initial : Custody A T where
  task _ := ⟨.constructed, .level1⟩
  queue _ := []
  stage _ := none
  added := []
  retired := []
  trace := []

end Custody

/-! ## The scheduler keeps custody -/

namespace System

variable {ρ T : Type} [DecidableEq ρ] [DecidableEq T] {s s' : System ρ T}

/-- The holders are the runners and the thread of `schedule`. -/
def stage (s : System ρ T) : Option ρ → Option (Phase × T)
  | some i => (s.runner i).pc.stage
  | none => s.main.stage

def custody (s : System ρ T) : Custody (Option ρ) T :=
  ⟨s.task, s.queue, s.stage, s.added, s.retired, s.trace⟩

/-- What an action does about the tasks, if it does anything. -/
def move (s : System ρ T) : Action ρ T → Option (Move (Option ρ) T)
  | .add t => some (.add t)
  | .runner i c =>
      match (s.runner i).pc with
      | .pop => if s.queue .run = [] then none else some (.take (some i) .run .check)
      | .work _ _ => some (.work (some i) c)
      | _ => none
  | .main c =>
      match s.main with
      | .move q => if s.queue q = [] then none else some (.take none q .hand)
      | .drain q => if s.queue q = [] then none else some (.take none q .test)
      | .work _ _ _ => some (.work none c)
      | _ => none
  | .write k => s.pending[k]?.map fun p ↦ .write p.1 p.2
  | .resume t => some (.write t .started)
  | .setPriority t p => some (.priority t p)
  | _ => none

theorem custody_initial : (initial : System ρ T).custody = Custody.initial := by
  simp only [custody, initial, Custody.initial, Custody.mk.injEq, true_and, and_true]
  funext a
  cases a <;> rfl

theorem custody_setRunner (i : ρ) (r : Runner T) :
    (s.setRunner i r).custody = s.custody.setStage (some i) r.pc.stage := by
  have hstage : (s.setRunner i r).stage = Function.update s.stage (some i) r.pc.stage := by
    funext b
    cases b with
    | none => rfl
    | some j =>
        by_cases hj : j = i
        · simp [stage, setRunner, hj]
        · simp [stage, setRunner, hj]
  simp only [custody, Custody.setStage, hstage]
  rfl

theorem custody_main (m : Main ρ T) :
    ({ s with main := m } : System ρ T).custody = s.custody.setStage none m.stage := by
  have hstage : ({ s with main := m } : System ρ T).stage =
      Function.update s.stage none m.stage := by
    funext b
    cases b <;> rfl
  simp only [custody, Custody.setStage, hstage]

theorem custody_act (t : T) (o : Outcome) : (s.act t o).custody = s.custody.act t o := by
  cases o with
  | write st φ =>
      simp only [act, Custody.act]
      split_ifs <;> rfl
  | _ => rfl

theorem setStage_self {A : Type} [DecidableEq A] (s : Custody A T) (a : A) :
    s.setStage a (s.stage a) = s := by
  simp [Custody.setStage]

theorem Outcome.stage_pc (t : T) (o : Outcome) : (o.pc t).stage = o.stage t := by
  cases o with
  | put q counted => cases counted <;> rfl
  | retire r counted => cases counted <;> rfl
  | _ => rfl

theorem Outcome.stage_main (q : Queue) (t : T) (o : Outcome) :
    (o.main q t : Main ρ T).stage = o.stage t := by
  cases o <;> rfl

/-- A step of the system is a move, or nothing, for the tasks. -/
def Follows (s : System ρ T) (a : Action ρ T) (s' : System ρ T) : Prop :=
  s.move a = none ∧ s'.custody = s.custody ∨
    ∃ m, s.move a = some m ∧ s.custody.step m = some s'.custody

/-- A step of a runner that holds nothing before and after it. -/
theorem custody_setRunner_idle {i : ρ} {r : Runner T} (hold : (s.runner i).pc.stage = none)
    (hnew : r.pc.stage = none) : (s.setRunner i r).custody = s.custody := by
  rw [custody_setRunner, hnew, ← hold]
  exact setStage_self s.custody (some i)

theorem custody_main_idle {m : Main ρ T} (hold : s.main.stage = none) (hnew : m.stage = none) :
    ({ s with main := m } : System ρ T).custody = s.custody := by
  rw [custody_main, hnew, ← hold]
  exact setStage_self s.custody none

theorem follows_runner {limit : ℕ} {i : ρ} {c : Choice}
    (h : s.stepRunner limit i c = some s') : Follows s (.runner i c) s' := by
  unfold stepRunner at h
  cases hpc : (s.runner i).pc with
  | unstarted => simp [hpc] at h
  | exited => simp [hpc] at h
  | outer =>
      simp only [hpc, Option.some.injEq] at h
      subst h
      refine .inl ⟨by simp [move, hpc], custody_setRunner_idle (by rw [hpc]; rfl) ?_⟩
      split_ifs <;> rfl
  | inner =>
      simp only [hpc, Option.some.injEq] at h
      subst h
      refine .inl ⟨by simp [move, hpc], custody_setRunner_idle (by rw [hpc]; rfl) ?_⟩
      split_ifs <;> rfl
  | count =>
      simp only [hpc, Option.some.injEq] at h
      subst h
      refine .inl ⟨by simp [move, hpc], custody_setRunner_idle (by rw [hpc]; rfl) ?_⟩
      split_ifs <;> rfl
  | pop =>
      simp only [hpc] at h
      cases hqueue : s.queue .run with
      | nil =>
          simp only [hqueue, Option.some.injEq] at h
          subst h
          exact .inl ⟨by simp [move, hpc, hqueue], custody_setRunner_idle (by rw [hpc]; rfl) rfl⟩
      | cons t rest =>
          simp only [hqueue, Option.some.injEq] at h
          subst h
          have hstage : s.custody.stage (some i) = none := by
            simp [custody, stage, hpc, Pc.stage]
          have hhead : s.custody.queue .run = t :: rest := hqueue
          refine .inr ⟨.take (some i) .run .check, by simp [move, hpc, hqueue], ?_⟩
          rw [custody_setRunner]
          simp only [Custody.step, hstage, hhead]
          rfl
  | work φ t =>
      simp only [hpc] at h
      cases hnext : φ.next (s.task t) c with
      | none => simp [hnext] at h
      | some o =>
          simp only [hnext, Option.some.injEq] at h
          subst h
          have hstage : s.custody.stage (some i) = some (φ, t) := by
            simp [custody, stage, hpc, Pc.stage]
          refine .inr ⟨.work (some i) c, by simp [move, hpc], ?_⟩
          rw [custody_setRunner, custody_act, Outcome.stage_pc]
          have hnext' : φ.next (s.custody.task t) c = some o := hnext
          simp only [Custody.step, hstage, hnext']

theorem follows_main {c : Choice} (h : s.stepMain c = some s') : Follows s (.main c) s' := by
  unfold stepMain at h
  have hafter : ∀ q : Queue, (q.after.elim .idle .schedule : Main ρ T).stage = none := by
    intro q
    cases q <;> rfl
  have hdrain : ∀ q : Queue, (q.after.elim .done .drain : Main ρ T).stage = none := by
    intro q
    cases q <;> rfl
  have htake : ∀ q t rest e, s.main.stage = none → s.queue q = t :: rest →
      s.custody.step (.take none q e) =
        some ({ s.setQueue q rest with main := .work q e.phase t } : System ρ T).custody := by
    intro q t rest e hmain hqueue
    have hstage : s.custody.stage none = none := hmain
    have hhead : s.custody.queue q = t :: rest := hqueue
    simp only [Custody.step, hstage, hhead]
    exact congrArg some (custody_main (s := s.setQueue q rest) (.work q e.phase t)).symm
  cases hmain : s.main with
  | idle => simp [hmain] at h
  | done => simp [hmain] at h
  | aborted => simp [hmain] at h
  | schedule q =>
      have hidle : s.main.stage = none := by
        rw [hmain]
        rfl
      simp only [hmain] at h
      split at h <;> cases h
      · exact .inl ⟨by simp [move, hmain], custody_main_idle hidle rfl⟩
      · exact .inl ⟨by simp [move, hmain], custody_main_idle hidle (hafter q)⟩
  | move q =>
      have hidle : s.main.stage = none := by
        rw [hmain]
        rfl
      simp only [hmain] at h
      split at h <;> rename_i hqueue <;> cases h
      · exact .inl ⟨by simp [move, hmain, hqueue], custody_main_idle hidle (hafter q)⟩
      · exact .inr ⟨_, by simp [move, hmain, hqueue], htake q _ _ .hand hidle hqueue⟩
  | drain q =>
      have hidle : s.main.stage = none := by
        rw [hmain]
        rfl
      simp only [hmain] at h
      split at h <;> rename_i hqueue <;> cases h
      · exact .inl ⟨by simp [move, hmain, hqueue], custody_main_idle hidle (hdrain q)⟩
      · exact .inr ⟨_, by simp [move, hmain, hqueue], htake q _ _ .test hidle hqueue⟩
  | stop rest =>
      have hidle : s.main.stage = none := by
        rw [hmain]
        rfl
      simp only [hmain] at h
      cases rest with
      | nil =>
          cases h
          exact .inl ⟨by simp [move, hmain], custody_main_idle hidle rfl⟩
      | cons i rest =>
          cases h
          refine .inl ⟨by simp [move, hmain], ?_⟩
          have hrunner : (s.setRunner i { s.runner i with stop := true }).custody = s.custody := by
            rw [custody_setRunner]
            exact setStage_self s.custody (some i)
          rw [← hrunner]
          exact custody_main_idle (s := s.setRunner i _) hidle rfl
  | join i rest =>
      have hidle : s.main.stage = none := by
        rw [hmain]
        rfl
      simp only [hmain] at h
      split at h <;> cases h
      exact .inl ⟨by simp [move, hmain], custody_main_idle hidle rfl⟩
  | work q φ t =>
      simp only [hmain] at h
      cases hnext : φ.next (s.task t) c with
      | none => simp [hnext] at h
      | some o =>
          simp only [hnext, Option.some.injEq] at h
          subst h
          have hstage : s.custody.stage none = some (φ, t) := by
            simp [custody, stage, hmain, Main.stage]
          refine .inr ⟨.work none c, by simp [move, hmain], ?_⟩
          have hnext' : φ.next (s.custody.task t) c = some o := hnext
          have hafter' := custody_main (s := s.act t o) (o.main q t)
          rw [custody_act, Outcome.stage_main] at hafter'
          simp only [Custody.step, hstage, hnext']
          exact congrArg some hafter'.symm

/-- The scheduler refines the custody of its tasks. -/
theorem follows {limit : ℕ} {a : Action ρ T} (h : s.step limit a = some s') : Follows s a s' := by
  cases a with
  | runner i c => exact follows_runner h
  | main c => exact follows_main h
  | add t =>
      simp only [step] at h
      split_ifs at h with hmem
      cases h
      refine .inr ⟨.add t, rfl, ?_⟩
      have hmem' : t ∉ s.custody.added := hmem
      rw [Custody.step, if_neg hmem']
      rfl
  | start i =>
      simp only [step] at h
      split at h <;> cases h
      rename_i hpc _
      have hrunner : (s.setRunner i { s.runner i with pc := .outer, stop := false }).custody =
          s.custody := custody_setRunner_idle (by rw [hpc]; rfl) rfl
      exact .inl ⟨rfl, hrunner⟩
  | schedule =>
      simp only [step] at h
      split at h <;> cases h
      rename_i hmain
      exact .inl ⟨rfl, custody_main_idle (by rw [hmain]; rfl) rfl⟩
  | finish =>
      simp only [step] at h
      split at h <;> cases h
      rename_i hmain
      exact .inl ⟨rfl, custody_main_idle (by rw [hmain]; rfl) rfl⟩
  | pause t =>
      simp only [step] at h
      split_ifs at h <;> cases h <;> exact .inl ⟨rfl, rfl⟩
  | cancel t =>
      simp only [step] at h
      split_ifs at h <;> cases h <;> exact .inl ⟨rfl, rfl⟩
  | resume t =>
      cases h
      exact .inr ⟨.write t .started, rfl, rfl⟩
  | setPriority t p =>
      cases h
      exact .inr ⟨.priority t p, rfl, rfl⟩
  | write k =>
      simp only [step] at h
      split at h
      · cases h
      · rename_i t st hk
        cases h
        refine .inr ⟨.write t st, by simp [move, hk], ?_⟩
        simp only [Custody.step]
        split_ifs <;> rfl

end System

end WiseKernel.Core.Task
