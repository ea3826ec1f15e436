import WiseKernel.Core.TaskView

/-!
# Shutdown

`task_scheduler::finish` stops the runners and empties the queues one after the
other.  A task that has begun is finished on the way, once.
-/

namespace WiseKernel.Core.Task

open WiseKernel.Lib

/-! ## What a started task is owed -/

/-- The phases after the call of `on_finish`. -/
def Phase.Ending : Phase → Prop
  | .onFinish _ | .finishWrite _ | .drop _ => True
  | _ => False

/-- What a step must not do to a task that is owed its `on_finish`: a runner
drops a task whose `on_execute` has thrown or has returned `finished`. -/
def Glimpse.Keeps (v : View) (l : Loc) : Glimpse → Prop
  | .work c =>
      (l = .held .onExecute → c ≠ .throws ∧ c ≠ .execute .finished) ∧
        (l = .held .testStarted → v.state ≠ .paused)
  | .write st =>
      (l = .held .startRead → st = .started) ∧ (l = .held .testCancelled → st = .cancelled)
  | .stay | .add | .take _ => True

/-- What is known of a task in a phase. -/
def Phase.Owes (v : View) : Phase → Prop
  | .onStart => v.begun = false
  | .startRead => v.begun = true → v.state = .started
  | .testCancelled => v.begun = true → v.state = .cancelled
  | .onFinish _ | .finishWrite _ | .drop _ => v.ended = true
  | _ => True

def Loc.Owes (v : View) : Loc → Prop
  | .nowhere => v.begun = false
  | .queued => True
  | .held φ => φ.Owes v
  | .retired => v.begun = true → v.ended = true

/-- The invariant of one task until `finish` returns. -/
structure View.Owed (v : View) (l : Loc) : Prop where
  finished : v.state = .finished → v.ended = true
  constructed : v.begun = true → v.state = .constructed → l = .held .startWrite
  /-- After `on_finish` the task goes nowhere else. -/
  ended : v.ended = true → l = .retired ∨ ∃ φ, l = .held φ ∧ φ.Ending
  loc : l.Owes v

section

variable {v : View} {φ : Phase} {p : Priority} {c : Choice} {o : Outcome} {l l' : Loc}

/-- A step that leaves the view. -/
theorem View.Owed.move (h : v.Owed l) (hconstructed : v.begun = true → v.state ≠ .constructed)
    (hended : v.ended = false ∨ l' = .retired ∨ ∃ φ, l' = .held φ ∧ φ.Ending) (hloc : l'.Owes v) :
    v.Owed l' := by
  refine ⟨h.finished, fun hbegun hs ↦ absurd hs (hconstructed hbegun), fun he ↦ ?_, hloc⟩
  rcases hended with hnot | hend
  · rw [he] at hnot
    cases hnot
  · exact hend

/-- `on_finish` was not called before the last phases. -/
theorem View.Owed.ended_eq_false (h : v.Owed (.held φ)) (hφ : ¬ φ.Ending) : v.ended = false := by
  refine Bool.eq_false_iff.mpr fun he ↦ ?_
  rcases h.ended he with hretired | ⟨ψ, heq, hψ⟩
  · cases hretired
  · cases heq
    exact hφ hψ

theorem View.Owed.state_ne_constructed (h : v.Owed l) (hl : l ≠ .held .startWrite)
    (hbegun : v.begun = true) : v.state ≠ .constructed :=
  fun hs ↦ hl (h.constructed hbegun hs)

/-- A step of the holder. -/
theorem View.Owed.next (h : v.Owed (.held φ)) (hnext : φ.next ⟨v.state, p⟩ c = some o)
    (hok : Glimpse.Keeps v (.held φ) (.work c)) : (o.view v).Owed o.loc := by
  have hloc := h.loc
  by_cases hstart : φ = .startWrite
  · subst hstart
    cases hnext
    have hended := h.ended_eq_false id
    refine ⟨fun hs ↦ ?_, fun _ hs ↦ ?_, fun he ↦ ?_, fun _ ↦ rfl⟩
    · cases hs
    · cases hs
    · have he' : v.ended = true := he
      rw [hended] at he'
      cases he'
  have hconstructed : v.begun = true → v.state ≠ .constructed :=
    h.state_ne_constructed (by simpa using hstart)
  cases φ with
  | startWrite => exact absurd rfl hstart
  | check =>
      have hended := h.ended_eq_false id
      simp only [Phase.next, Option.some.injEq] at hnext
      subst hnext
      split_ifs with hstate
      · have hbegun : v.begun = false := Bool.eq_false_iff.mpr fun hb ↦ hconstructed hb hstate
        exact h.move hconstructed (.inl hended) hbegun
      · exact h.move hconstructed (.inl hended) trivial
  | onStart =>
      have hended := h.ended_eq_false id
      have hbegun : v.begun = false := hloc
      simp only [Phase.next] at hnext
      split at hnext <;> cases hnext
      · refine ⟨h.finished, fun _ _ ↦ rfl, fun he ↦ ?_, trivial⟩
        have he' : v.ended = true := he
        rw [hended] at he'
        cases he'
      · exact h.move hconstructed (.inl hended) fun hb ↦ by simp [hbegun] at hb
      · exact h.move hconstructed (.inl hended) fun hb ↦ by simp [hbegun] at hb
  | startRead =>
      have hended := h.ended_eq_false id
      simp only [Phase.next, Option.some.injEq] at hnext
      subst hnext
      split_ifs with hstate
      · exact h.move hconstructed (.inl hended) trivial
      · exact h.move hconstructed (.inl hended) fun hb ↦ absurd (hloc hb) hstate
  | testPaused | executeCancelled | executePaused =>
      have hended := h.ended_eq_false id
      simp only [Phase.next, Option.some.injEq] at hnext
      subst hnext
      split_ifs <;> exact h.move hconstructed (.inl hended) trivial
  | executeFinished =>
      have hended := h.ended_eq_false id
      simp only [Phase.next, Option.some.injEq] at hnext
      subst hnext
      split_ifs with hstate
      · exact h.move hconstructed (.inl hended) fun _ ↦ h.finished hstate
      · exact h.move hconstructed (.inl hended) trivial
  | call | pass counted | push q counted | hand =>
      have hended := h.ended_eq_false id
      cases hnext
      exact h.move hconstructed (.inl hended) trivial
  | onExecute =>
      have hended := h.ended_eq_false id
      obtain ⟨hthrows, hfinished⟩ := hok.1 rfl
      simp only [Phase.next] at hnext
      split at hnext <;> cases hnext
      · exact h.move hconstructed (.inl hended) trivial
      · exact h.move hconstructed (.inl hended) trivial
      · exact h.move hconstructed (.inl hended) trivial
      · exact absurd rfl hfinished
      · exact absurd rfl hthrows
  | finish r =>
      cases hnext
      exact ⟨fun _ ↦ rfl, fun hb hs ↦ absurd hs (hconstructed hb),
        fun _ ↦ .inr ⟨_, rfl, trivial⟩, rfl⟩
  | onFinish r =>
      have hended : v.ended = true := hloc
      simp only [Phase.next] at hnext
      split at hnext <;> cases hnext
      · exact h.move hconstructed (.inr (.inr ⟨_, rfl, trivial⟩)) hended
      · exact h.move hconstructed (.inr (.inl rfl)) fun _ ↦ hended
  | finishWrite r =>
      have hended : v.ended = true := hloc
      cases hnext
      refine ⟨fun _ ↦ hended, fun _ hs ↦ ?_, fun _ ↦ .inr ⟨_, rfl, trivial⟩, hended⟩
      cases hs
  | drop r =>
      have hended : v.ended = true := hloc
      cases hnext
      exact h.move hconstructed (.inr (.inl rfl)) fun _ ↦ hended
  | testStarted =>
      have hended := h.ended_eq_false id
      have hpaused := hok.2 rfl
      simp only [Phase.next, Option.some.injEq] at hnext
      subst hnext
      split_ifs with hstate
      · exact h.move hconstructed (.inl hended) trivial
      · refine h.move hconstructed (.inl hended) fun hb ↦ ?_
        -- the states that are left
        cases hs : v.state with
        | cancelled => rfl
        | constructed => exact absurd hs (hconstructed hb)
        | started => exact absurd hs hstate
        | paused => exact absurd hs hpaused
        | finished =>
            rw [h.finished hs] at hended
            cases hended
  | testCancelled =>
      have hended := h.ended_eq_false id
      simp only [Phase.next, Option.some.injEq] at hnext
      subst hnext
      split_ifs with hstate
      · exact h.move hconstructed (.inl hended) trivial
      · exact h.move hconstructed (.inl hended) fun hb ↦ absurd (hloc hb) hstate

/-- A write of the application. -/
theorem View.Owed.set {st : Status} (h : v.Owed l) (hst : st ≠ .constructed ∧ st ≠ .finished)
    (hok : Glimpse.Keeps v l (.write st)) : (v.set st).Owed l := by
  refine ⟨fun hs ↦ absurd hs hst.2, fun _ hs ↦ absurd hs hst.1, h.ended, ?_⟩
  have hloc := h.loc
  cases l with
  | nowhere | queued | retired => exact hloc
  | held φ =>
      cases φ with
      | startRead => exact fun _ ↦ hok.1 rfl
      | testCancelled => exact fun _ ↦ hok.2 rfl
      | _ => exact hloc

/-- A step of whoever holds the task, or of the application. -/
theorem View.Owed.step {v' : View} {g : Glimpse} (h : v.Owed l) (hlocal : Local v l g v' l')
    (hok : g.Keeps v l) (hst : ∀ st, g = .write st → st ≠ .constructed ∧ st ≠ .finished) :
    v'.Owed l' := by
  cases hlocal with
  | stay => exact h
  | add =>
      have hbegun : v.begun = false := h.loc
      refine ⟨h.finished, fun hb ↦ by simp [hbegun] at hb, fun he ↦ ?_, trivial⟩
      rcases h.ended he with hretired | ⟨ψ, heq, -⟩
      · cases hretired
      · cases heq
  | take e =>
      have hended : v.ended = false := by
        refine Bool.eq_false_iff.mpr fun he ↦ ?_
        rcases h.ended he with hretired | ⟨ψ, heq, -⟩
        · cases hretired
        · cases heq
      refine h.move (h.state_ne_constructed (by simp)) (.inl hended) ?_
      cases e <;> trivial
  | work hnext => exact h.next hnext hok
  | write _ st => exact h.set (hst st rfl) hok

end

namespace Custody

variable {A T : Type} [DecidableEq A] [DecidableEq T] {s s' : Custody A T} {t : T}

/-- `on_finish` is called once on a task, and the scheduler does not forget it. -/
structure Owed (s : Custody A T) (t : T) : Prop where
  tokens : s.Tokens
  owed : ∀ l, s.LocOf t l → (s.view t).Owed l
  once : s.trace.count (t, .onFinish) ≤ 1

theorem owed_initial : (initial : Custody A T).Owed t where
  tokens := tokens_initial
  owed l hl := by
    have hnowhere : (initial : Custody A T).LocOf t .nowhere := List.not_mem_nil
    cases tokens_initial.loc_eq hl hnowhere
    have hview : (initial : Custody A T).view t = ⟨.constructed, false, false, false, false⟩ := by
      simp [view, initial]
    rw [hview]
    exact ⟨by decide, by decide, by simp, rfl⟩
  once := Nat.zero_le 1

theorem Owed.step {m : Move A T} (h : s.Owed t) (hstep : s.step m = some s')
    (hok : ∀ l g, s.LocOf t l → s.Shows t m g → g.Keeps (s.view t) l)
    (hst : ∀ st, m = .write t st → st ≠ .constructed ∧ st ≠ .finished) : s'.Owed t where
  tokens := h.tokens.step hstep
  owed l' hl' := by
    obtain ⟨l, g, hl, hshows, hlocal⟩ := h.tokens.local_step hstep hl'
    refine (h.owed l hl).step hlocal (hok l g hl hshows) ?_
    rintro st rfl
    exact hst st hshows
  once := by
    rcases trace_step hstep with heq | ⟨x, n, heq, hcase⟩
    · rw [heq]
      exact h.once
    · rw [heq, List.count_append]
      by_cases hx : (x, n) = (t, Note.onFinish)
      · obtain ⟨rfl, rfl⟩ := Prod.mk.inj hx
        obtain ⟨a, φ, ψ, c, hstage, hnext⟩ : ∃ a φ ψ c, s.stage a = some (φ, x) ∧
            φ.next (s.task x) c = some (.emit .onFinish ψ) := by simpa using hcase
        -- `on_finish` is called in one phase only
        obtain ⟨r, rfl⟩ : ∃ r, φ = .finish r := by
          cases φ with
          | finish r => exact ⟨r, rfl⟩
          | check =>
              simp only [Phase.next] at hnext
              split_ifs at hnext <;> cases hnext
          | executeFinished | testCancelled | startRead =>
              simp only [Phase.next] at hnext
              split_ifs at hnext <;> cases hnext
          | onStart | onExecute | onFinish r =>
              simp only [Phase.next] at hnext
              split at hnext <;> cases hnext
          | _ => cases hnext
        have hended := (h.owed (.held (.finish r)) ⟨a, hstage⟩).ended_eq_false id
        have hzero : s.trace.count (x, Note.onFinish) = 0 :=
          List.count_eq_zero.mpr (of_decide_eq_false hended)
        rw [hzero]
        simp
      · rw [List.count_singleton]
        simp only [beq_iff_eq, hx, if_false, Nat.add_zero]
        exact h.once

end Custody

/-! ## `finish` waits for the runners and empties the queues -/

def Queue.before : Queue → List Queue
  | .run => []
  | .wait1 => [.run]
  | .wait2 => [.run, .wait1]
  | .wait3 => [.run, .wait1, .wait2]

/-- The phases of `finish_queue`. -/
def Phase.Draining : Phase → Prop
  | .testStarted | .testCancelled | .finish _ | .onFinish _ | .finishWrite _ | .drop _ => True
  | _ => False

/-- `finish` was called. -/
def Main.Finishing {ρ T : Type} : Main ρ T → Prop
  | .stop _ | .join _ _ | .drain _ | .done | .aborted => True
  | .work _ φ _ => φ.Draining
  | .idle | .schedule _ | .move _ => False

/-- What `finish_queue` makes of its task. -/
def Outcome.Draining : Outcome → Prop
  | .go φ | .write _ φ | .emit _ φ => φ.Draining
  | .put _ _ => False
  | .retire _ _ | .thrown => True

theorem Phase.Draining.next {φ : Phase} {task : Task} {c : Choice} {o : Outcome} (h : φ.Draining)
    (hnext : φ.next task c = some o) : o.Draining := by
  cases φ with
  | testStarted | testCancelled =>
      simp only [Phase.next, Option.some.injEq] at hnext
      subst hnext
      split_ifs <;> trivial
  | onFinish r =>
      simp only [Phase.next] at hnext
      split at hnext <;> cases hnext <;> trivial
  | finish r | finishWrite r | drop r =>
      cases hnext
      trivial
  | _ => cases h

/-- The thread of the runner does not run. -/
def Pc.Gone {T : Type} : Pc T → Prop
  | .unstarted | .exited => True
  | _ => False

namespace System

variable {ρ T : Type} {s s' : System ρ T} {limit : ℕ}

/-- What `finish` has done so far. -/
def Drained (s : System ρ T) (l : List Queue) : Prop :=
  (∀ i, (s.runner i).pc.Gone) ∧ ∀ q ∈ l, s.queue q = []

def MainOk (s : System ρ T) : Main ρ T → Prop
  | .stop rest => ∀ i, i ∈ rest ∨ (s.runner i).pc.Gone
  | .join i rest => ∀ j, j = i ∨ j ∈ rest ∨ (s.runner j).pc.Gone
  | .drain q => s.Drained q.before
  | .work q φ _ => φ = .hand ∨ φ.Draining ∧ s.Drained q.before
  | .done => s.Drained [.run, .wait1, .wait2, .wait3]
  | .idle | .schedule _ | .move _ | .aborted => True

/-- The invariant of the shutdown. -/
structure Down (s : System ρ T) : Prop where
  registered : ∀ i, (s.runner i).pc.Gone ∨ i ∈ s.runners
  pending : ∀ x ∈ s.pending, x.2 = .paused ∨ x.2 = .cancelled
  main : s.MainOk s.main

theorem down_initial : (initial : System ρ T).Down where
  registered _ := .inl trivial
  pending _ h := (nomatch h)
  main := trivial

/-- A step that leaves every runner that is gone, and queues that are empty. -/
theorem MainOk.mono {m : Main ρ T} (h : s.MainOk m)
    (hgone : ∀ i, (s.runner i).pc.Gone → (s'.runner i).pc.Gone)
    (hqueue : m.Finishing → (∀ i, (s.runner i).pc.Gone) → ∀ q, s.queue q = [] → s'.queue q = []) :
    s'.MainOk m := by
  cases m with
  | stop rest =>
      intro i
      exact (h i).imp_right (hgone i)
  | join i rest =>
      intro j
      exact (h j).imp_right fun hj ↦ hj.imp_right (hgone j)
  | drain q =>
      exact ⟨fun i ↦ hgone i (h.1 i), fun q hq ↦ hqueue trivial h.1 q (h.2 q hq)⟩
  | done =>
      exact ⟨fun i ↦ hgone i (h.1 i), fun q hq ↦ hqueue trivial h.1 q (h.2 q hq)⟩
  | work q φ t =>
      refine h.imp_right fun ⟨hφ, hdrained⟩ ↦ ⟨hφ, fun i ↦ hgone i (hdrained.1 i), ?_⟩
      exact fun q hq ↦ hqueue hφ hdrained.1 q (hdrained.2 q hq)
  | idle | schedule q | move q | aborted => trivial

variable [DecidableEq ρ] [DecidableEq T]

theorem frame_act (t : T) (o : Outcome) :
    (s.act t o).pending = s.pending ∧ (s.act t o).runners = s.runners := by
  cases o with
  | write st φ =>
      simp only [act]
      split_ifs <;> exact ⟨rfl, rfl⟩
  | _ => exact ⟨rfl, rfl⟩

/-- A step of a runner that runs, and nothing else but the tasks. -/
theorem frame_stepRunner {i : ρ} {c : Choice} (h : s.stepRunner limit i c = some s') :
    ¬ (s.runner i).pc.Gone ∧ s'.main = s.main ∧ s'.pending = s.pending ∧
      s'.runners = s.runners ∧ ∀ j, j ≠ i → s'.runner j = s.runner j := by
  have hother : ∀ (s₁ : System ρ T) (r : Runner T) (j : ρ), j ≠ i →
      (s₁.setRunner i r).runner j = s₁.runner j := by
    intro s₁ r j hj
    rw [setRunner_runner, if_neg hj]
  unfold stepRunner at h
  cases hpc : (s.runner i).pc with
  | unstarted => simp [hpc] at h
  | exited => simp [hpc] at h
  | outer | inner | count =>
      simp only [hpc, Option.some.injEq] at h
      subst h
      exact ⟨id, rfl, rfl, rfl, hother s _⟩
  | pop =>
      simp only [hpc] at h
      split at h <;> cases h
      · exact ⟨id, rfl, rfl, rfl, hother s _⟩
      · exact ⟨id, rfl, rfl, rfl, hother (s.setQueue .run _) _⟩
  | work φ t =>
      simp only [hpc] at h
      cases hnext : φ.next (s.task t) c with
      | none => simp [hnext] at h
      | some o =>
          simp only [hnext, Option.some.injEq] at h
          subst h
          obtain ⟨hpending, hrunners⟩ := frame_act (s := s) t o
          refine ⟨id, act_main, hpending, hrunners, fun j hj ↦ ?_⟩
          rw [hother _ _ j hj, act_runner]

theorem Down.stepRunner {i : ρ} {c : Choice} (h : s.Down)
    (hstep : s.stepRunner limit i c = some s') : s'.Down := by
  obtain ⟨hruns, hmain, hpending, hrunners, hother⟩ := frame_stepRunner hstep
  have hgone : ∀ j, (s.runner j).pc.Gone → (s'.runner j).pc.Gone := by
    intro j hj
    by_cases hji : j = i
    · rw [hji] at hj
      exact absurd hj hruns
    · rw [hother j hji]
      exact hj
  refine ⟨fun j ↦ ?_, hpending ▸ h.pending, ?_⟩
  · rw [hrunners]
    exact (h.registered j).imp_left (hgone j)
  · rw [hmain]
    exact h.main.mono hgone fun _ hall ↦ absurd (hall i) hruns

/-- After the last task of a queue. -/
theorem Drained.after {q : Queue} (h : s.Drained q.before) (hqueue : s.queue q = []) :
    s.MainOk (q.after.elim .done .drain) := by
  have hq : ∀ l : List Queue, (∀ q' ∈ l, q' ∈ q.before ∨ q' = q) → s.Drained l := by
    refine fun l hl ↦ ⟨h.1, fun q' hq' ↦ ?_⟩
    rcases hl q' hq' with hbefore | rfl
    · exact h.2 q' hbefore
    · exact hqueue
  cases q <;> exact hq _ (by decide)

theorem Down.stepMain {c : Choice} (h : s.Down) (hstep : s.stepMain c = some s') : s'.Down := by
  have hmain := h.main
  unfold System.stepMain at hstep
  cases hpc : s.main with
  | idle => simp [hpc] at hstep
  | done => simp [hpc] at hstep
  | aborted => simp [hpc] at hstep
  | schedule q =>
      simp only [hpc] at hstep
      split at hstep <;> cases hstep
      · exact ⟨h.registered, h.pending, trivial⟩
      · exact ⟨h.registered, h.pending, by cases q <;> trivial⟩
  | move q =>
      simp only [hpc] at hstep
      split at hstep <;> cases hstep
      · exact ⟨h.registered, h.pending, by cases q <;> trivial⟩
      · exact ⟨h.registered, h.pending, .inl rfl⟩
  | stop rest =>
      rw [hpc] at hmain
      cases rest with
      | nil =>
          simp only [hpc] at hstep
          cases hstep
          refine ⟨h.registered, h.pending, fun i ↦ ?_, by simp [Queue.before]⟩
          exact (hmain i).resolve_left List.not_mem_nil
      | cons i rest =>
          simp only [hpc] at hstep
          cases hstep
          have hrunner : ∀ j, ((s.setRunner i { s.runner i with stop := true }).runner j).pc =
              (s.runner j).pc := by
            intro j
            rw [setRunner_runner]
            split_ifs with hj
            · rw [hj]
            · rfl
          refine ⟨fun j ↦ ?_, h.pending, fun j ↦ ?_⟩
          · rw [hrunner]
            exact h.registered j
          · rw [hrunner]
            simpa [or_assoc] using hmain j
  | join i rest =>
      rw [hpc] at hmain
      simp only [hpc] at hstep
      split at hstep <;> cases hstep
      rename_i hexited
      refine ⟨h.registered, h.pending, fun j ↦ ?_⟩
      rcases hmain j with rfl | hj
      · right
        rw [hexited]
        trivial
      · exact hj
  | drain q =>
      rw [hpc] at hmain
      simp only [hpc] at hstep
      split at hstep <;> rename_i hqueue <;> cases hstep
      · exact ⟨h.registered, h.pending, hmain.after hqueue⟩
      · refine ⟨h.registered, h.pending, .inr ⟨trivial, hmain.1, fun q' hq' ↦ ?_⟩⟩
        have hne : q' ≠ q := by
          rintro rfl
          cases q' <;> simp [Queue.before] at hq'
        simp only [setQueue, Function.update_of_ne hne]
        exact hmain.2 q' hq'
  | work q φ t =>
      rw [hpc] at hmain
      simp only [hpc] at hstep
      cases hnext : φ.next (s.task t) c with
      | none => simp [hnext] at hstep
      | some o =>
          simp only [hnext, Option.some.injEq] at hstep
          subst hstep
          obtain ⟨hpending, hrunners⟩ := frame_act (s := s) t o
          refine ⟨fun i ↦ ?_, fun x hx ↦ h.pending x (hpending ▸ hx), ?_⟩
          · simp only [act_runner, hrunners]
            exact h.registered i
          · rcases hmain with rfl | ⟨hφ, hdrained⟩
            · cases hnext
              trivial
            · have hqueue : o.Draining → (s.act t o).queue = s.queue := by
                cases o with
                | write st ψ =>
                    intro _
                    simp only [act]
                    split_ifs <;> rfl
                | put q' counted => exact False.elim
                | _ => exact fun _ ↦ rfl
              have ho := hφ.next hnext
              have hdrained' : (s.act t o).Drained q.before := by
                refine ⟨fun i ↦ ?_, fun q' hq' ↦ ?_⟩
                · rw [act_runner]
                  exact hdrained.1 i
                · rw [hqueue ho]
                  exact hdrained.2 q' hq'
              cases o with
              | go ψ | write st ψ | emit n ψ => exact .inr ⟨ho, hdrained'⟩
              | put q' counted => cases ho
              | retire r counted => exact hdrained'
              | thrown => trivial

theorem Down.step {a : Action ρ T} (h : s.Down) (hadd : ∀ x, a = .add x → ¬ s.main.Finishing)
    (hstep : s.step limit a = some s') : s'.Down := by
  cases a with
  | runner i c => exact h.stepRunner hstep
  | main c => exact h.stepMain hstep
  | add t =>
      simp only [System.step] at hstep
      split_ifs at hstep
      cases hstep
      refine ⟨h.registered, h.pending, h.main.mono (fun _ hi ↦ hi) fun hfinishing ↦ ?_⟩
      exact absurd hfinishing (hadd t rfl)
  | start i =>
      simp only [System.step] at hstep
      split at hstep <;> cases hstep
      rename_i hpc hmain
      refine ⟨fun j ↦ ?_, h.pending, ?_⟩
      · simp only [setRunner_runner, List.mem_append, List.mem_singleton]
        by_cases hj : j = i
        · exact .inr (.inr hj)
        · rw [if_neg hj]
          exact (h.registered j).imp_right .inl
      · change MainOk _ s.main
        rw [hmain]
        trivial
  | schedule =>
      simp only [System.step] at hstep
      split at hstep <;> cases hstep
      exact ⟨h.registered, h.pending, trivial⟩
  | finish =>
      simp only [System.step] at hstep
      split at hstep <;> cases hstep
      exact ⟨h.registered, h.pending, fun i ↦ (h.registered i).symm⟩
  | pause t | cancel t =>
      simp only [System.step] at hstep
      split_ifs at hstep <;> cases hstep
      · exact h
      · refine ⟨h.registered, fun x hx ↦ ?_, h.main.mono (fun _ hi ↦ hi) fun _ _ _ hq ↦ hq⟩
        rcases List.mem_append.mp hx with hx | hx
        · exact h.pending x hx
        · rw [List.mem_singleton.mp hx]
          simp
  | write k =>
      simp only [System.step] at hstep
      split at hstep
      · cases hstep
      · cases hstep
        split_ifs <;> exact ⟨h.registered, fun x hx ↦ h.pending x (List.mem_of_mem_eraseIdx hx),
          h.main.mono (fun _ hi ↦ hi) fun _ _ _ hq ↦ hq⟩
  | resume t | setPriority t p =>
      cases hstep
      exact ⟨h.registered, h.pending, h.main.mono (fun _ hi ↦ hi) fun _ _ _ hq ↦ hq⟩

/-- A step that does not drop the task, and no `add` during `finish`. -/
def Keeps (s : System ρ T) (t : T) (a : Action ρ T) : Prop :=
  (∀ x, a = .add x → ¬ s.main.Finishing) ∧
    ∀ m l g, s.move a = some m → s.custody.LocOf t l → s.custody.Shows t m g →
      g.Keeps (s.custody.view t) l

/-- The application writes three of the states. -/
theorem Down.write {a : Action ρ T} {t : T} {st : Status} (h : s.Down)
    (hmove : s.move a = some (.write t st)) : st ≠ .constructed ∧ st ≠ .finished := by
  cases a with
  | write k =>
      obtain ⟨x, hx, heq⟩ := Option.map_eq_some_iff.mp hmove
      cases heq
      rcases h.pending x (List.mem_of_getElem? hx) with hst | hst <;> simp [hst]
  | resume t' =>
      cases hmove
      simp
  | runner i c =>
      simp only [move] at hmove
      split at hmove <;> try split_ifs at hmove
      all_goals cases hmove
  | main c =>
      simp only [move] at hmove
      split at hmove <;> try split_ifs at hmove
      all_goals cases hmove
  | _ => cases hmove

/-- When `finish` has returned, a task that has begun was finished once. -/
theorem finished_once (limit : ℕ) (t : T) (s : System ρ T)
    (h : Reaches (step limit) (fun s a ↦ s.Keeps t a) initial s) (hdone : s.main = .done)
    (hbegun : (t, .started) ∈ s.trace) : s.trace.count (t, .onFinish) = 1 := by
  obtain ⟨hdown, howed⟩ : s.Down ∧ s.custody.Owed t := by
    refine @Reaches.invariant _ _ _ _
      (fun s : System ρ T ↦ s.Down ∧ s.custody.Owed t) _ _ h ?_ ?_
    · refine ⟨down_initial, ?_⟩
      rw [custody_initial]
      exact Custody.owed_initial
    · rintro s a s' ⟨hdown, howed⟩ ⟨hadd, hkeeps⟩ hstep
      refine ⟨hdown.step hadd hstep, ?_⟩
      rcases follows hstep with ⟨-, heq⟩ | ⟨m, hm, hmove⟩
      · rw [heq]
        exact howed
      · refine howed.step hmove (fun l g ↦ hkeeps m l g hm) fun st hst ↦ ?_
        rw [hst] at hm
        exact hdown.write hm
  obtain ⟨hgone, hempty⟩ : s.Drained [.run, .wait1, .wait2, .wait3] := by
    have hmain := hdown.main
    rw [hdone] at hmain
    exact hmain
  -- the task is in no queue and with no thread
  obtain ⟨l, hl⟩ := howed.tokens.exists_loc t
  have hloc := (howed.owed l hl).loc
  have hview : (s.custody.view t).begun = true := decide_eq_true hbegun
  have hended : (s.custody.view t).ended = true := by
    cases l with
    | nowhere =>
        have hnot : (s.custody.view t).begun = false := hloc
        rw [hview] at hnot
        cases hnot
    | queued =>
        obtain ⟨q, hq⟩ := hl
        have hqueue : s.queue q = [] := hempty q (by cases q <;> decide)
        have hq' : t ∈ s.queue q := hq
        rw [hqueue] at hq'
        cases hq'
    | held φ =>
        obtain ⟨i, hi⟩ := hl
        have hi' : s.stage i = some (φ, t) := hi
        cases i with
        | none => simp [stage, hdone, Main.stage] at hi'
        | some i =>
            have hpc := hgone i
            simp only [stage] at hi'
            cases hcase : (s.runner i).pc with
            | work ψ x =>
                rw [hcase] at hpc
                cases hpc
            | _ => simp [hcase, Pc.stage] at hi'
    | retired => exact hloc hview
  have hmem : (t, Note.onFinish) ∈ s.trace := of_decide_eq_true hended
  exact Nat.le_antisymm howed.once (List.one_le_count_iff.mpr hmem)

/-- A runner is told to stop inside `on_execute`, and the task it passes back is
finished by `finish_queue`. -/
def finishRun : List (Action Unit Unit) :=
  ([.add (), .start ()] : List (Action Unit Unit)) ++
    List.replicate 12 (Action.runner () (.start true)) ++
    ([.finish, .main .returns, .runner () (.execute .success)] : List (Action Unit Unit)) ++
    List.replicate 5 (Action.runner () .returns) ++ List.replicate 12 (Action.main .returns)

def checkAdd (s : System Unit Unit) : Action Unit Unit → Bool
  | .add _ =>
      match s.main with
      | .idle => true
      | _ => false
  | _ => true

theorem not_finishing_of_check {s : System Unit Unit} {a : Action Unit Unit}
    (h : checkAdd s a = true) : ∀ x, a = .add x → ¬ s.main.Finishing := by
  rintro x rfl
  simp only [checkAdd] at h
  split at h
  · rename_i hmain
    rw [hmain]
    exact id
  · cases h

def checkWork (s : System Unit Unit) : Action Unit Unit → Bool
  | .runner _ c | .main c =>
      c ≠ .throws ∧ c ≠ .execute .finished ∧ (s.task ()).state ≠ .paused
  | .write _ | .resume _ => false
  | _ => true

theorem Keeps.of_check {s : System Unit Unit} {a : Action Unit Unit}
    (h : (checkAdd s a && checkWork s a) = true) : s.Keeps () a := by
  obtain ⟨hadd, hwork⟩ := Bool.and_eq_true_iff.mp h
  refine ⟨not_finishing_of_check hadd, fun m l g hmove hl hshows ↦ ?_⟩
  -- no write, and the choice of the thread is the one that is checked
  have hcases : (∀ t st, m ≠ .write t st) ∧ ∀ i c, m = .work i c →
      c ≠ .throws ∧ c ≠ .execute .finished ∧ (s.task ()).state ≠ .paused := by
    cases a with
    | write k | resume t => cases hwork
    | runner i c | main c =>
        have hc := of_decide_eq_true (p := _ ∧ _ ∧ _) hwork
        simp only [move] at hmove
        split at hmove <;> try split_ifs at hmove
        all_goals cases hmove
        all_goals refine ⟨by simp, fun j c' heq ↦ ?_⟩
        all_goals cases heq
        all_goals exact hc
    | add t | setPriority t p =>
        cases hmove
        exact ⟨by simp, by simp⟩
    | _ => cases hmove
  cases g with
  | stay | add | take e => trivial
  | write st => exact absurd hshows (hcases.1 () st)
  | work c =>
      obtain ⟨i, φ, rfl, -⟩ := hshows
      obtain ⟨hthrows, hfinished, hpaused⟩ := hcases.2 i c rfl
      exact ⟨fun _ ↦ ⟨hthrows, hfinished⟩, fun _ ↦ hpaused⟩

/-- `finish` has returned. -/
def returned (s : System Unit Unit) : Bool :=
  match s.main with
  | .done => true
  | _ => false

theorem main_of_returned {s : System Unit Unit} (h : returned s = true) : s.main = .done := by
  unfold returned at h
  split at h
  · assumption
  · cases h

theorem finished_once_stopped : ∃ s : System Unit Unit,
    s.trace = [((), .onStart), ((), .started), ((), .onExecute), ((), .onFinish), ((), .finished)] ∧
      s.main = .done ∧ s.trace.count ((), .onFinish) = 1 := by
  have hrun : ∃ s, Reaches (step 0) (fun s a ↦ s.Keeps () a) initial s ∧
      (decide (s.trace = [((), Note.onStart), ((), .started), ((), .onExecute), ((), .onFinish),
        ((), .finished)]) && returned s) = true :=
    exists_reaches_checked finishRun (fun s a ↦ checkAdd s a && checkWork s a)
      (fun _ _ ↦ Keeps.of_check) (by decide)
  obtain ⟨s, hreach, hs⟩ := hrun
  obtain ⟨htrace, hreturned⟩ := Bool.and_eq_true_iff.mp hs
  have hdone := main_of_returned hreturned
  have htrace := of_decide_eq_true htrace
  exact ⟨s, htrace, hdone, finished_once 0 () s hreach hdone (by rw [htrace]; decide)⟩

/-- A task whose `on_execute` throws. -/
def throwRun : List (Action Unit Unit) :=
  ([.add (), .start ()] : List (Action Unit Unit)) ++
    List.replicate 12 (Action.runner () (.start true)) ++
    ([.runner () .throws, .finish, .main .returns, .runner () .returns, .runner () .returns] :
      List (Action Unit Unit)) ++ List.replicate 6 (Action.main .returns)

/-- A task that has thrown is not finished. -/
theorem not_finished_thrown : ¬ ∀ s : System Unit Unit,
    Reaches (step 0) (fun s a ↦ ∀ x, a = .add x → ¬ s.main.Finishing) initial s →
      s.main = .done → ∀ t, (t, .started) ∈ s.trace → s.trace.count (t, .onFinish) = 1 := by
  intro hall
  have hrun : ∃ s, Reaches (step 0) (fun s a ↦ ∀ x, a = .add x → ¬ s.main.Finishing) initial s ∧
      (decide (s.trace = [((), Note.onStart), ((), .started), ((), .onExecute)]) && returned s) =
        true :=
    exists_reaches_checked throwRun checkAdd (fun _ _ ↦ not_finishing_of_check) (by decide)
  obtain ⟨s, hreach, hs⟩ := hrun
  obtain ⟨htrace, hreturned⟩ := Bool.and_eq_true_iff.mp hs
  have htrace := of_decide_eq_true htrace
  have hone := hall s hreach (main_of_returned hreturned) () (by rw [htrace]; decide)
  rw [htrace] at hone
  cases hone

end System

end WiseKernel.Core.Task
