import WiseKernel.Core.TaskView

/-!
# The life cycle of a task

`on_start`, `on_execute` and `on_finish` come in this order as long as the
application writes the state of a task only when that says something true.
-/

namespace WiseKernel.Core.Task

open WiseKernel.Lib

/-- The callbacks that may be called on a task. -/
def View.Allows (v : View) : Note → Prop
  | .onStart => v.isOver = false
  | .onExecute => v.begun = true ∧ v.isOver = false ∧ v.cancelled = false
  | .onFinish => v.begun = true ∧ v.ended = false ∧ v.isOver = false
  | _ => True

/-- When the application may write a state. -/
def View.WriteOk (v : View) (l : Loc) : Status → Prop
  | .paused => v.state ≠ .finished
  | .cancelled => v.state ≠ .finished ∧ v.begun = true ∧
      ∀ φ, l = .held φ → φ ≠ .startWrite ∧ φ ≠ .executePaused ∧ φ ≠ .call
  | .started => v.state ≠ .finished ∧ v.begun = true ∧ v.cancelled = false
  | _ => False

/-- `on_finish` was not called, and a task that is constructed has not begun. -/
def View.Waiting (v : View) : Prop := v.ended = false ∧ (v.state = .constructed → v.begun = false)

/-- What is known of a task in a phase. -/
def Phase.Fine (v : View) : Phase → Prop
  | .check | .startRead | .pass _ | .push _ _ | .hand | .testStarted | .testCancelled => v.Waiting
  | .onStart => v.ended = false ∧ v.begun = false
  | .startWrite => v.ended = false ∧ v.begun = true ∧ v.cancelled = false
  | .testPaused => v.Waiting ∧ (v.begun = true ∨ v.state = .paused)
  | .executeFinished | .executeCancelled | .onExecute | .finish _ => v.Waiting ∧ v.begun = true
  | .executePaused => v.Waiting ∧ v.begun = true ∧ (v.cancelled = true → v.state = .paused)
  | .call => v.Waiting ∧ v.begun = true ∧ v.cancelled = false
  | .onFinish _ | .finishWrite _ => v.begun = true ∧ v.ended = true ∧ v.isOver = false
  | .drop _ => True

def Loc.Fine (v : View) : Loc → Prop
  | .nowhere | .queued => v.Waiting
  | .held φ => φ.Fine v
  | .retired => True

/-- The invariant of one task. -/
structure View.Fine (v : View) (l : Loc) : Prop where
  begun : v.state = .started ∨ v.state = .cancelled ∨ v.state = .finished → v.begun = true
  cancelled : v.cancelled = true → v.begun = true ∧ v.state ≠ .constructed ∧ v.state ≠ .started
  isOver : v.isOver = true ↔ v.state = .finished
  ended : v.isOver = true → v.ended = true
  loc : l.Fine v

section

variable {v : View} {φ : Phase} {p : Priority} {c : Choice} {o : Outcome} {l : Loc}

/-- A step that leaves the view. -/
theorem View.Fine.move {l' : Loc} (h : v.Fine l) (hloc : l'.Fine v) : v.Fine l' :=
  ⟨h.begun, h.cancelled, h.isOver, h.ended, hloc⟩

theorem View.Fine.over_eq_false (h : v.Fine l) (hended : v.ended = false) : v.isOver = false := by
  cases hover : v.isOver with
  | false => rfl
  | true =>
      rw [h.ended hover] at hended
      cases hended

/-- A task that has not begun is new or paused. -/
theorem View.Fine.begun_or (h : v.Fine l) (hstate : v.state ≠ .constructed) :
    v.begun = true ∨ v.state = .paused := by
  cases hs : v.state with
  | constructed => exact absurd hs hstate
  | paused => exact .inr rfl
  | started => exact .inl (h.begun (.inl hs))
  | cancelled => exact .inl (h.begun (.inr (.inl hs)))
  | finished => exact .inl (h.begun (.inr (.inr hs)))

/-- `start` writes the state. -/
theorem View.Fine.started (h : v.Fine (.held .startWrite)) :
    (v.write .started).Fine (.held .startRead) := by
  obtain ⟨hended, hbegun, hcancelled⟩ := h.loc
  have hover := h.over_eq_false hended
  refine ⟨fun _ ↦ hbegun, fun hc ↦ ?_, ?_, fun ho ↦ ?_, hended, ?_⟩
  · rw [View.write, hcancelled] at hc
    cases hc
  · simp [View.write, hover]
  · simp [View.write, hover] at ho
  · simp [View.write]

/-- `finish` writes the state. -/
theorem View.Fine.finished {r : Reason} (h : v.Fine (.held (.finishWrite r))) :
    (v.write .finished).Fine (.held (.drop r)) := by
  refine ⟨fun _ ↦ h.loc.1, fun hc ↦ ⟨h.loc.1, ?_⟩, ?_, fun _ ↦ h.loc.2.1, trivial⟩
  · simp [View.write]
  · simp [View.write]

/-- A step of the holder. -/
theorem View.Fine.next (h : v.Fine (.held φ)) (hnext : φ.next ⟨v.state, p⟩ c = some o) :
    (o.view v).Fine o.loc ∧ ∀ n ψ, o = .emit n ψ → v.Allows n := by
  have hloc := h.loc
  cases φ with
  | check =>
      simp only [Phase.next, Option.some.injEq] at hnext
      subst hnext
      split_ifs with hstate
      · refine ⟨h.move ⟨hloc.1, hloc.2 hstate⟩, ?_⟩
        rintro n ψ ⟨⟩
        exact h.over_eq_false hloc.1
      · exact ⟨h.move ⟨hloc, h.begun_or hstate⟩, by simp⟩
  | onStart =>
      simp only [Phase.next] at hnext
      split at hnext <;> cases hnext
      · have hcancelled : v.cancelled = false := by
          cases hc : v.cancelled with
          | false => rfl
          | true =>
              have hnot : v.begun = false := hloc.2
              rw [(h.cancelled hc).1] at hnot
              cases hnot
        refine ⟨⟨fun _ ↦ rfl, fun hc ↦ ?_, h.isOver, h.ended, hloc.1, rfl, hcancelled⟩, ?_⟩
        · exact ⟨rfl, (h.cancelled hc).2⟩
        · rintro n ψ ⟨⟩
          trivial
      · exact ⟨h.move ⟨hloc.1, fun _ ↦ hloc.2⟩, by simp⟩
      · exact ⟨h.move trivial, by simp⟩
  | startWrite =>
      cases hnext
      exact ⟨h.started, by simp⟩
  | startRead =>
      simp only [Phase.next, Option.some.injEq] at hnext
      subst hnext
      split_ifs with hstate
      · exact ⟨h.move ⟨hloc, .inl (h.begun (.inl hstate))⟩, by simp⟩
      · exact ⟨h.move trivial, by simp⟩
  | testPaused =>
      simp only [Phase.next, Option.some.injEq] at hnext
      subst hnext
      split_ifs with hstate
      · exact ⟨h.move hloc.1, by simp⟩
      · exact ⟨h.move ⟨hloc.1, hloc.2.resolve_right hstate⟩, by simp⟩
  | executeFinished =>
      simp only [Phase.next, Option.some.injEq] at hnext
      subst hnext
      split_ifs
      · exact ⟨h.move trivial, by simp⟩
      · exact ⟨h.move hloc, by simp⟩
  | executeCancelled =>
      simp only [Phase.next, Option.some.injEq] at hnext
      subst hnext
      split_ifs with hstate
      · exact ⟨h.move hloc, by simp⟩
      · refine ⟨h.move ⟨hloc.1, hloc.2, fun hc ↦ ?_⟩, by simp⟩
        -- neither finished nor one of the states before a cancel
        obtain ⟨-, hconstructed, hstarted⟩ := h.cancelled hc
        have hover := h.over_eq_false hloc.1.1
        have hfinished : v.state ≠ .finished := by
          rw [Ne, ← h.isOver, hover]
          decide
        cases hs : v.state with
        | paused => rfl
        | constructed => exact absurd hs hconstructed
        | started => exact absurd hs hstarted
        | cancelled => exact absurd hs hstate
        | finished => exact absurd hs hfinished
  | executePaused =>
      simp only [Phase.next, Option.some.injEq] at hnext
      subst hnext
      split_ifs with hstate
      · exact ⟨h.move hloc.1, by simp⟩
      · refine ⟨h.move ⟨hloc.1, hloc.2.1, ?_⟩, by simp⟩
        exact Bool.eq_false_iff.mpr fun hc ↦ hstate (hloc.2.2 hc)
  | call =>
      cases hnext
      refine ⟨h.move ⟨hloc.1, hloc.2.1⟩, ?_⟩
      rintro n ψ ⟨⟩
      exact ⟨hloc.2.1, h.over_eq_false hloc.1.1, hloc.2.2⟩
  | onExecute =>
      simp only [Phase.next] at hnext
      split at hnext <;> cases hnext
      · exact ⟨h.move hloc.1, by simp⟩
      · exact ⟨h.move hloc, by simp⟩
      · exact ⟨h.move hloc, by simp⟩
      · exact ⟨h.move trivial, by simp⟩
      · exact ⟨h.move trivial, by simp⟩
  | finish r =>
      cases hnext
      have hover := h.over_eq_false hloc.1.1
      refine ⟨⟨h.begun, h.cancelled, h.isOver, fun _ ↦ rfl, hloc.2, rfl, hover⟩, ?_⟩
      rintro n ψ ⟨⟩
      exact ⟨hloc.2, hloc.1.1, hover⟩
  | onFinish r =>
      simp only [Phase.next] at hnext
      split at hnext <;> cases hnext
      · exact ⟨h.move hloc, by simp⟩
      · exact ⟨h.move trivial, by simp⟩
  | finishWrite r =>
      cases hnext
      exact ⟨h.finished, by simp⟩
  | drop r =>
      cases hnext
      exact ⟨h.move trivial, by simp⟩
  | pass counted | push q counted | hand =>
      cases hnext
      exact ⟨h.move hloc, by simp⟩
  | testStarted =>
      simp only [Phase.next, Option.some.injEq] at hnext
      subst hnext
      split_ifs with hstate
      · exact ⟨h.move ⟨hloc, h.begun (.inl hstate)⟩, by simp⟩
      · exact ⟨h.move hloc, by simp⟩
  | testCancelled =>
      simp only [Phase.next, Option.some.injEq] at hnext
      subst hnext
      split_ifs with hstate
      · exact ⟨h.move ⟨hloc, h.begun (.inr (.inl hstate))⟩, by simp⟩
      · exact ⟨h.move trivial, by simp⟩

theorem View.Waiting.set {st : Status} (h : v.Waiting) (hst : st ≠ .constructed) :
    (v.set st).Waiting :=
  ⟨h.1, fun hs ↦ absurd hs hst⟩

/-- In the phases in which a cancel would be lost there is none. -/
theorem Loc.Fine.set {st : Status} (h : l.Fine v) (hst : st ≠ .constructed)
    (hbegun : v.begun = true ∨ st = .paused)
    (hlost : ∀ φ, l = .held φ → φ = .startWrite ∨ φ = .executePaused ∨ φ = .call →
      st ≠ .cancelled ∧ (v.cancelled = true → st = .paused)) : l.Fine (v.set st) := by
  have hcancelled : st ≠ .cancelled → (v.set st).cancelled = v.cancelled := by
    intro hne
    simp [View.set, hne]
  cases l with
  | nowhere | queued => exact View.Waiting.set h hst
  | retired => trivial
  | held φ =>
      have hlost := hlost φ rfl
      cases φ with
      | check | startRead | pass _ | push _ _ | hand | testStarted | testCancelled =>
          exact View.Waiting.set h hst
      | onStart => exact h
      | startWrite =>
          refine ⟨h.1, h.2.1, ?_⟩
          rw [hcancelled (hlost (by simp)).1]
          exact h.2.2
      | testPaused => exact ⟨h.1.set hst, hbegun⟩
      | executeFinished | executeCancelled | onExecute | finish _ => exact ⟨h.1.set hst, h.2⟩
      | executePaused =>
          obtain ⟨hne, hpaused⟩ := hlost (by simp)
          refine ⟨h.1.set hst, h.2.1, fun hc ↦ ?_⟩
          rw [hcancelled hne] at hc
          exact hpaused hc
      | call =>
          refine ⟨h.1.set hst, h.2.1, ?_⟩
          rw [hcancelled (hlost (by simp)).1]
          exact h.2.2
      | onFinish _ | finishWrite _ => exact h
      | drop _ => trivial

/-- A write of the application. -/
theorem View.Fine.set {st : Status} (h : v.Fine l) (hok : v.WriteOk l st) : (v.set st).Fine l := by
  have hnot : v.state ≠ .finished → v.isOver = false := by
    intro hne
    exact Bool.eq_false_iff.mpr fun ho ↦ hne (h.isOver.mp ho)
  cases st with
  | constructed | finished => cases hok
  | paused =>
      have hover := hnot hok
      refine ⟨?_, fun hc ↦ ⟨(h.cancelled ?_).1, ?_⟩, ?_, h.ended, ?_⟩
      · simp [View.set]
      · simpa [View.set] using hc
      · simp [View.set]
      · simp [View.set, hover]
      · exact h.loc.set (by decide) (.inr rfl) fun _ _ _ ↦ ⟨by decide, fun _ ↦ rfl⟩
  | cancelled =>
      obtain ⟨hstate, hbegun, hphase⟩ := hok
      have hover := hnot hstate
      refine ⟨fun _ ↦ hbegun, fun _ ↦ ⟨hbegun, ?_⟩, ?_, h.ended, ?_⟩
      · simp [View.set]
      · simp [View.set, hover]
      · refine h.loc.set (by decide) (.inl hbegun) fun φ hφ hlost ↦ ?_
        obtain ⟨h₁, h₂, h₃⟩ := hphase φ hφ
        rcases hlost with h | h | h
        · exact absurd h h₁
        · exact absurd h h₂
        · exact absurd h h₃
  | started =>
      obtain ⟨hstate, hbegun, hcancelled⟩ := hok
      have hover := hnot hstate
      refine ⟨fun _ ↦ hbegun, fun hc ↦ ?_, ?_, h.ended, ?_⟩
      · simp [View.set, hcancelled] at hc
      · simp [View.set, hover]
      · refine h.loc.set (by decide) (.inl hbegun) fun _ _ _ ↦ ⟨by decide, fun hc ↦ ?_⟩
        rw [hcancelled] at hc
        cases hc

end

/-- The callbacks that may be called on a task after some notes. -/
def Allowed {T : Type} (a : List (T × Note)) (t : T) : Note → Prop
  | .onStart => (t, .finished) ∉ a
  | .onExecute => (t, .started) ∈ a ∧ (t, .finished) ∉ a ∧ (t, .cancelled) ∉ a
  | .onFinish => (t, .started) ∈ a ∧ (t, .onFinish) ∉ a ∧ (t, .finished) ∉ a
  | _ => True

namespace Custody

variable {A T : Type} [DecidableEq A] [DecidableEq T] {s s' : Custody A T}

theorem allowed_of_view {t : T} {n : Note} (h : (s.view t).Allows n) : Allowed s.trace t n := by
  cases n <;> simpa [View.Allows, Allowed, view] using h

/-- The invariant of runs in which the application writes no wrong state. -/
structure Orderly (s : Custody A T) : Prop where
  tokens : s.Tokens
  fine : ∀ t l, s.LocOf t l → (s.view t).Fine l
  allowed : ∀ a t n b, s.trace = a ++ (t, n) :: b → Allowed a t n

theorem orderly_initial : (initial : Custody A T).Orderly where
  tokens := tokens_initial
  fine t l hl := by
    have hnowhere : (initial : Custody A T).LocOf t .nowhere := List.not_mem_nil
    cases tokens_initial.loc_eq hl hnowhere
    have hview : (initial : Custody A T).view t = ⟨.constructed, false, false, false, false⟩ := by
      simp [view, initial]
    rw [hview]
    exact ⟨by decide, by decide, by decide, by decide, rfl, fun _ ↦ rfl⟩
  allowed a t n b h := by
    have hlength := congrArg List.length h
    simp [initial] at hlength

/-- The note that a step adds. -/
theorem Orderly.trace_step {m : Move A T} (h : s.Orderly) (hstep : s.step m = some s') :
    s'.trace = s.trace ∨ ∃ t n, s'.trace = s.trace ++ [(t, n)] ∧ Allowed s.trace t n := by
  rcases Custody.trace_step hstep with heq | ⟨t, n, heq, hcase⟩
  · exact .inl heq
  · refine .inr ⟨t, n, heq, ?_⟩
    rcases hcase with rfl | rfl | ⟨a, φ, ψ, c, hstage, hnext⟩
    · trivial
    · trivial
    · have hfine := h.fine t (.held φ) ⟨a, hstage⟩
      have hnext' : φ.next ⟨(s.view t).state, (s.task t).priority⟩ c = some (.emit n ψ) := hnext
      exact allowed_of_view ((hfine.next hnext').2 n ψ rfl)

theorem Orderly.step {m : Move A T} (h : s.Orderly) (hstep : s.step m = some s')
    (hok : ∀ t st l, m = .write t st → s.LocOf t l → (s.view t).WriteOk l st) : s'.Orderly where
  tokens := h.tokens.step hstep
  fine t l' hl' := by
    obtain ⟨l, g, hl, hshows, hlocal⟩ := h.tokens.local_step hstep hl'
    have hfine := h.fine t l hl
    have hwrite : ∀ st, g = .write st → (s.view t).WriteOk l st := by
      rintro st rfl
      exact hok t st l hshows hl
    generalize s'.view t = v' at hlocal ⊢
    generalize s.view t = v at hlocal hfine hwrite
    cases hlocal with
    | stay => exact hfine
    | add => exact hfine.move hfine.loc
    | take e =>
        have hwaiting : View.Waiting _ := hfine.loc
        cases e <;> exact hfine.move hwaiting
    | work hnext => exact (hfine.next hnext).1
    | write _ st => exact hfine.set (hwrite st rfl)
  allowed a t n b hsplit := by
    rcases h.trace_step hstep with heq | ⟨t', n', heq, hallowed⟩ <;> rw [heq] at hsplit
    · exact h.allowed a t n b hsplit
    · rcases List.append_eq_append_iff.mp hsplit with ⟨c, rfl, hc⟩ | ⟨c, hc, hb⟩
      · -- the last note
        rcases List.cons_eq_append_iff.mp hc with ⟨rfl, hlast⟩ | ⟨c', -, hlast⟩
        · cases hlast
          rw [List.append_nil]
          exact hallowed
        · simp at hlast
      · cases c with
        | nil =>
            rw [List.append_nil] at hc
            subst hc
            cases hb
            exact hallowed
        | cons x c =>
            obtain ⟨rfl, rfl⟩ := List.cons.inj hb
            exact h.allowed a t n c hc

end Custody

namespace System

variable {ρ T : Type} [DecidableEq ρ] [DecidableEq T] {s s' : System ρ T} {limit : ℕ}

/-- A write of `pause`, `resume` or `cancel` comes when it may. -/
def WriteOk (s : System ρ T) (a : Action ρ T) : Prop :=
  ∀ t st l, s.move a = some (.write t st) → s.custody.LocOf t l → (s.custody.view t).WriteOk l st

/-- The life cycle of tasks. -/
structure LifeCycle (s : System ρ T) : Prop where
  /-- `on_execute` comes after `on_start` has returned true. -/
  execute : ∀ a t b, s.trace = a ++ (t, .onExecute) :: b → (t, .started) ∈ a
  finish : ∀ a t b, s.trace = a ++ (t, .onFinish) :: b →
    (t, .started) ∈ a ∧ (t, .onFinish) ∉ a
  /-- Nothing is called on a finished task. -/
  quiet : ∀ a t n b, s.trace = a ++ (t, n) :: b →
    n = .onStart ∨ n = .onExecute ∨ n = .onFinish → (t, .finished) ∉ a
  isOver : ∀ t, (t, .finished) ∈ s.trace → (s.task t).state = .finished
  cancelled : ∀ a t b, s.trace = a ++ (t, .onExecute) :: b → (t, .cancelled) ∉ a

theorem LifeCycle.of_orderly (h : s.custody.Orderly) : s.LifeCycle where
  execute a t b hsplit := (h.allowed a t .onExecute b hsplit).1
  finish a t b hsplit := by
    obtain ⟨hstarted, hended, -⟩ := h.allowed a t .onFinish b hsplit
    exact ⟨hstarted, hended⟩
  quiet a t n b hsplit hn := by
    have hallowed := h.allowed a t n b hsplit
    rcases hn with rfl | rfl | rfl
    · exact hallowed
    · exact hallowed.2.1
    · exact hallowed.2.2
  isOver t ht := by
    obtain ⟨l, hl⟩ := h.tokens.exists_loc t
    have hover : (s.custody.view t).isOver = true := decide_eq_true ht
    exact (h.fine t l hl).isOver.mp hover
  cancelled a t b hsplit := (h.allowed a t .onExecute b hsplit).2.2

/-- The life cycle of tasks holds in every run whose writes come when they may. -/
theorem lifeCycle (limit : ℕ) (s : System ρ T)
    (h : Reaches (step limit) (fun s a ↦ s.WriteOk a) initial s) : s.LifeCycle := by
  have horderly : s.custody.Orderly := by
    refine @Reaches.invariant _ _ _ _ (fun s : System ρ T ↦ s.custody.Orderly) _ _ h ?_
      fun s a s' hs ha hstep ↦ ?_
    · rw [custody_initial]
      exact Custody.orderly_initial
    · rcases follows hstep with ⟨-, heq⟩ | ⟨m, hm, hmove⟩
      · rw [heq]
        exact hs
      · refine hs.step hmove fun t st l hwrite hl ↦ ha t st l ?_ hl
        rw [hm, hwrite]
  exact .of_orderly horderly

/-- A task that is paused and resumed while it executes, and cancelled after that. -/
def cancelRun : List (Action Unit Unit) :=
  ([.setPriority () .realtime, .add (), .start ()] : List (Action Unit Unit)) ++
    List.replicate 12 (Action.runner () (.start true)) ++
    ([.pause (), .write 0, .resume (), .cancel (), .runner () (.execute .success),
      .runner () .returns, .runner () .returns, .write 0] : List (Action Unit Unit)) ++
    List.replicate 12 (Action.runner () .returns)

def checkWrite (s : System Unit Unit) : Action Unit Unit → Bool
  | .write 0 =>
      match s.pending with
      | [(t, .paused)] => (s.task t).state ≠ .finished
      | [(t, .cancelled)] =>
          (s.task t).state ≠ .finished ∧ (t, .started) ∈ s.trace ∧
            s.custody.stage none = none ∧ s.custody.stage (some ()) = none
      | _ => false
  | .write _ => false
  | .resume t =>
      (s.task t).state ≠ .finished ∧ (t, .started) ∈ s.trace ∧ (t, .cancelled) ∉ s.trace
  | _ => true

theorem WriteOk.of_check {s : System Unit Unit} {a : Action Unit Unit}
    (h : checkWrite s a = true) : s.WriteOk a := by
  intro t st l hmove hl
  cases a with
  | write k =>
      cases k with
      | succ k => cases h
      | zero =>
          simp only [checkWrite] at h
          split at h
          · rename_i hpending
            simp only [move, hpending] at hmove
            cases hmove
            have hstate := of_decide_eq_true h
            exact hstate
          · rename_i hpending
            simp only [move, hpending] at hmove
            cases hmove
            obtain ⟨hstate, hbegun, hmain, hrunner⟩ := of_decide_eq_true h
            refine ⟨hstate, decide_eq_true hbegun, ?_⟩
            -- no thread holds the task
            rintro φ rfl
            obtain ⟨i, hi⟩ := hl
            cases i with
            | none => simp [hmain] at hi
            | some i => simp [hrunner] at hi
          · cases h
  | resume t' =>
      cases hmove
      have hresume := of_decide_eq_true (p := _ ∧ _ ∧ _) h
      obtain ⟨hstate, hbegun, hcancelled⟩ := hresume
      exact ⟨hstate, decide_eq_true hbegun, decide_eq_false hcancelled⟩
  | runner i c =>
      simp only [move] at hmove
      split at hmove <;> try split_ifs at hmove
      all_goals cases hmove
  | main c =>
      simp only [move] at hmove
      split at hmove <;> try split_ifs at hmove
      all_goals cases hmove
  | _ => cases hmove

/-- What has happened to the task in the end. -/
def cancelled (s : System Unit Unit) : Bool :=
  s.trace = [((), .onStart), ((), .started), ((), .onExecute), ((), .cancelled), ((), .onFinish),
    ((), .finished)]

theorem lifeCycle_cancelled : ∃ s : System Unit Unit, s.cancelled = true ∧ s.LifeCycle := by
  have hrun : ∃ s, Reaches (step 0) (fun s a ↦ s.WriteOk a) initial s ∧ cancelled s = true :=
    exists_reaches_checked cancelRun checkWrite (fun _ _ ↦ WriteOk.of_check) (by decide)
  obtain ⟨s, hreach, hs⟩ := hrun
  exact ⟨s, hs, lifeCycle 0 s hreach⟩

/-- A task that is paused and resumed before its start. -/
def unstartedRun : List (Action Unit Unit) :=
  ([.add (), .pause (), .write 0, .resume (), .start ()] : List (Action Unit Unit)) ++
    List.replicate 9 (Action.runner () .returns)

/-- `on_execute` is called on a task whose `on_start` was never called. -/
theorem not_lifeCycle_unstarted : ¬ ∀ s : System Unit Unit,
    Reaches (step 0) (fun _ _ ↦ True) initial s → s.LifeCycle := by
  intro hall
  have hrun : ∃ s : System Unit Unit, Reaches (step 0) (fun _ _ ↦ True) initial s ∧
      decide (s.trace = [((), .onExecute)]) = true :=
    exists_reaches unstartedRun (fun _ _ _ ↦ trivial) (by decide)
  obtain ⟨s, hreach, hs⟩ := hrun
  have hnil := (hall s hreach).execute [] () [] (of_decide_eq_true hs)
  cases hnil

end System

end WiseKernel.Core.Task
