import WiseKernel.Core.Custody

/-!
# Tasks are tokens

A task that was added lies in one queue, is held by one thread, or is retired.
-/

namespace WiseKernel.Core.Task

open WiseKernel.Lib

variable {A T : Type}

/-- Where a task is. -/
inductive Place (A : Type)
  | queue (q : Queue)
  | held (a : A)
  | retired
  deriving DecidableEq

namespace Custody

/-- The task is at the place. -/
def At (s : Custody A T) (t : T) : Place A → Prop
  | .queue q => t ∈ s.queue q
  | .held a => ∃ φ, s.stage a = some (φ, t)
  | .retired => t ∈ s.retired.map Prod.fst

/-- The tasks are tokens. -/
structure Tokens (s : Custody A T) : Prop where
  known : ∀ t p, s.At t p → t ∈ s.added
  placed : ∀ t ∈ s.added, ∃ p, s.At t p
  one : ∀ t p p', s.At t p → s.At t p' → p = p'
  nodup : ∀ q, (s.queue q).Nodup
  retiredNodup : (s.retired.map Prod.fst).Nodup

variable {s s' : Custody A T} {t : T} {p d : Place A}

theorem tokens_initial : (initial : Custody A T).Tokens := by
  have hnone : ∀ t p, ¬ (initial : Custody A T).At t p := by
    rintro t (q | a | _) h
    · cases h
    · obtain ⟨φ, h⟩ := h
      cases h
    · cases h
  exact ⟨fun t p h ↦ absurd h (hnone t p), fun t h ↦ (nomatch h),
    fun t p p' h ↦ absurd h (hnone t p),
    fun _ ↦ List.nodup_nil, List.nodup_nil⟩

/-- A step that moves no task. -/
theorem Tokens.keep (h : s.Tokens) (hqueue : s'.queue = s.queue)
    (hstage : ∀ t a, (∃ φ, s'.stage a = some (φ, t)) ↔ ∃ φ, s.stage a = some (φ, t))
    (hadded : s'.added = s.added) (hretired : s'.retired = s.retired) : s'.Tokens := by
  have hat : ∀ t p, s'.At t p ↔ s.At t p := by
    rintro t (q | a | _)
    · simp only [At, hqueue]
    · exact hstage t a
    · simp only [At, hretired]
  refine ⟨fun t p hp ↦ ?_, fun t ht ↦ ?_, fun t p p' hp hp' ↦ ?_, fun q ↦ ?_, ?_⟩
  · rw [hadded]
    exact h.known t p ((hat t p).mp hp)
  · rw [hadded] at ht
    obtain ⟨p, hp⟩ := h.placed t ht
    exact ⟨p, (hat t p).mpr hp⟩
  · exact h.one t p p' ((hat t p).mp hp) ((hat t p').mp hp')
  · rw [hqueue]
    exact h.nodup q
  · rw [hretired]
    exact h.retiredNodup

/-- A step that brings one task to a place. -/
theorem Tokens.arrive (h : s.Tokens) (hat : ∀ x y, s'.At x y ↔ x = t ∧ y = p ∨ x ≠ t ∧ s.At x y)
    (hadded : ∀ x, x ∈ s'.added ↔ x = t ∨ x ∈ s.added) (hnodup : ∀ q, (s'.queue q).Nodup)
    (hretired : (s'.retired.map Prod.fst).Nodup) : s'.Tokens := by
  refine ⟨fun x y hy ↦ ?_, fun x hx ↦ ?_, fun x y y' hy hy' ↦ ?_, hnodup, hretired⟩
  · rw [hadded]
    rcases (hat x y).mp hy with ⟨rfl, -⟩ | ⟨-, hy⟩
    · exact .inl rfl
    · exact .inr (h.known x y hy)
  · by_cases hxt : x = t
    · exact ⟨p, (hat x p).mpr (.inl ⟨hxt, rfl⟩)⟩
    · obtain ⟨y, hy⟩ := h.placed x (((hadded x).mp hx).resolve_left hxt)
      exact ⟨y, (hat x y).mpr (.inr ⟨hxt, hy⟩)⟩
  · rcases (hat x y).mp hy with ⟨rfl, rfl⟩ | ⟨hne, hy⟩
    · rcases (hat x y').mp hy' with ⟨-, rfl⟩ | ⟨hne, -⟩
      · rfl
      · exact absurd rfl hne
    · rcases (hat x y').mp hy' with ⟨heq, -⟩ | ⟨-, hy'⟩
      · exact absurd heq hne
      · exact h.one x y y' hy hy'

/-- A task of `s` at one place moves to another. -/
theorem Tokens.move (h : s.Tokens) (hp : s.At t p)
    (hat : ∀ x y, s'.At x y ↔ x = t ∧ y = d ∨ x ≠ t ∧ s.At x y) (hadded : s'.added = s.added)
    (hnodup : ∀ q, (s'.queue q).Nodup) (hretired : (s'.retired.map Prod.fst).Nodup) :
    s'.Tokens := by
  refine h.arrive hat (fun x ↦ ?_) hnodup hretired
  rw [hadded]
  exact ⟨.inr, fun hx ↦ hx.elim (fun heq ↦ heq ▸ h.known t p hp) id⟩

/-- The only place of a task. -/
theorem Tokens.not_at (h : s.Tokens) (hp : s.At t p) (hne : d ≠ p) : ¬ s.At t d :=
  fun hd ↦ hne (h.one t d p hd hp)

variable [DecidableEq A] [DecidableEq T]

theorem at_held_setStage {w : Option (Phase × T)} {a b : A} {x : T} :
    (s.setStage a w).At x (.held b) ↔ if b = a then ∃ φ, w = some (φ, x) else s.At x (.held b) := by
  simp only [At, setStage, Function.update_apply]
  split_ifs <;> rfl

theorem Tokens.add (h : s.Tokens) (ht : t ∉ s.added) :
    Tokens { s.setQueue .run (s.queue .run ++ [t]) with added := s.added ++ [t] } := by
  have hnone : ∀ p, ¬ s.At t p := fun p hp ↦ ht (h.known t p hp)
  have hqueue : ∀ x q, x ∈ Function.update s.queue .run (s.queue .run ++ [t]) q ↔
      x ∈ s.queue q ∨ q = .run ∧ x = t := by
    intro x q
    rw [Function.update_apply]
    split_ifs with hq
    · simp [hq]
    · simp [hq]
  apply h.arrive (t := t) (p := .queue .run)
  · intro x y
    by_cases hx : x = t
    · subst hx
      cases y with
      | queue q =>
          have hnot : x ∉ s.queue q := hnone (.queue q)
          simp [At, setQueue, hqueue, hnot]
      | held a =>
          have hnot : ¬ ∃ φ, s.stage a = some (φ, x) := hnone (.held a)
          simpa [At, setQueue] using hnot
      | retired =>
          have hnot : ¬ x ∈ s.retired.map Prod.fst := hnone .retired
          simpa [At, setQueue] using hnot
    · cases y <;> simp [At, setQueue, hqueue, hx]
  · intro x
    simp [or_comm]
  · intro q
    simp only [setQueue, Function.update_apply]
    split_ifs with hq
    · refine List.nodup_append.mpr ⟨h.nodup .run, by simp, ?_⟩
      rintro x hx y hy rfl
      rw [List.mem_singleton.mp hy] at hx
      exact hnone (.queue .run) hx
    · exact h.nodup q
  · exact h.retiredNodup

theorem Tokens.take (h : s.Tokens) {a : A} {q : Queue} {rest : List T} {φ : Phase}
    (hstage : s.stage a = none) (hqueue : s.queue q = t :: rest) :
    ((s.setQueue q rest).setStage a (some (φ, t))).Tokens := by
  have hp : s.At t (.queue q) := by
    change t ∈ s.queue q
    rw [hqueue]
    exact List.mem_cons_self
  have hnodup : (t :: rest).Nodup := hqueue ▸ h.nodup q
  refine h.move (d := .held a) hp (fun x y ↦ ?_) rfl (fun q' ↦ ?_) h.retiredNodup
  · by_cases hx : x = t
    · subst hx
      cases y with
      | queue q' =>
          have hnot : x ∉ Function.update s.queue q rest q' := by
            rw [Function.update_apply]
            split_ifs with hq
            · exact (List.nodup_cons.mp hnodup).1
            · exact h.not_at hp (d := .queue q') (by simpa using hq)
          simpa [At, setStage, setQueue] using hnot
      | held b =>
          rw [at_held_setStage]
          split_ifs with hb
          · simp [hb]
          · have hnot : ¬ s.At x (.held b) := h.not_at hp (by simp)
            have hnot' : ¬ (s.setQueue q rest).At x (.held b) := hnot
            simp [hb, hnot']
      | retired =>
          have hnot : ¬ s.At x .retired := h.not_at hp (by simp)
          have hnot' : ¬ ((s.setQueue q rest).setStage a (some (φ, x))).At x .retired := hnot
          simp [hnot']
    · cases y with
      | queue q' =>
          simp only [At, setStage, setQueue, Function.update_apply]
          split_ifs with hq
          · simp [hq, hqueue, hx]
          · simp [hx]
      | held b =>
          rw [at_held_setStage]
          split_ifs with hb
          · subst hb
            simp [At, hstage, hx, Ne.symm hx]
          · simp [At, setQueue, hx]
      | retired => simp [At, setStage, setQueue, hx]
  · simp only [setStage, setQueue, Function.update_apply]
    split_ifs
    · exact (List.nodup_cons.mp hnodup).2
    · exact h.nodup q'

theorem Tokens.put (h : s.Tokens) {a : A} {q : Queue} {φ : Phase}
    (hstage : s.stage a = some (φ, t)) :
    ((s.setQueue q (s.queue q ++ [t])).setStage a none).Tokens := by
  have hp : s.At t (.held a) := ⟨φ, hstage⟩
  have hqueue : ∀ x q', x ∈ Function.update s.queue q (s.queue q ++ [t]) q' ↔
      x ∈ s.queue q' ∨ q' = q ∧ x = t := by
    intro x q'
    rw [Function.update_apply]
    split_ifs with hq
    · simp [hq]
    · simp [hq]
  refine h.move (d := .queue q) hp (fun x y ↦ ?_) rfl (fun q' ↦ ?_) h.retiredNodup
  · by_cases hx : x = t
    · subst hx
      cases y with
      | queue q' =>
          have hnot : x ∉ s.queue q' := h.not_at hp (d := .queue q') (by simp)
          simp [At, setStage, setQueue, hqueue, hnot]
      | held b =>
          rw [at_held_setStage]
          split_ifs with hb
          · simp
          · have hnot : ¬ (s.setQueue q (s.queue q ++ [x])).At x (.held b) :=
              h.not_at hp (d := .held b) (by simpa using hb)
            simp [hnot]
      | retired =>
          have hnot : ¬ ((s.setQueue q (s.queue q ++ [x])).setStage a none).At x .retired :=
            h.not_at hp (d := .retired) (by simp)
          simp [hnot]
    · cases y with
      | queue q' => simp [At, setStage, setQueue, hqueue, hx]
      | held b =>
          rw [at_held_setStage]
          split_ifs with hb
          · subst hb
            simp [At, hstage, Ne.symm hx, hx]
          · simp [At, setQueue, hx]
      | retired => simp [At, setStage, setQueue, hx]
  · simp only [setStage, setQueue, Function.update_apply]
    split_ifs
    · refine List.nodup_append.mpr ⟨h.nodup q, by simp, ?_⟩
      rintro x hx y hy rfl
      rw [List.mem_singleton.mp hy] at hx
      exact h.not_at hp (d := .queue q) (by simp) hx
    · exact h.nodup q'

theorem Tokens.retire (h : s.Tokens) {a : A} {φ : Phase} (r : Reason)
    (hstage : s.stage a = some (φ, t)) :
    (setStage { s with retired := s.retired ++ [(t, r)] } a none).Tokens := by
  have hp : s.At t (.held a) := ⟨φ, hstage⟩
  have hnot : t ∉ s.retired.map Prod.fst := h.not_at hp (d := .retired) (by simp)
  refine h.move (d := .retired) hp (fun x y ↦ ?_) rfl h.nodup ?_
  · by_cases hx : x = t
    · subst hx
      cases y with
      | queue q' =>
          have hqueue : x ∉ s.queue q' := h.not_at hp (d := .queue q') (by simp)
          simp [At, setStage, hqueue]
      | held b =>
          rw [at_held_setStage]
          split_ifs with hb
          · simp
          · have hheld : ¬ At { s with retired := s.retired ++ [(x, r)] } x (.held b) :=
              h.not_at hp (d := .held b) (by simpa using hb)
            simp [hheld]
      | retired => simp [At, setStage]
    · cases y with
      | queue q' => simp [At, setStage, hx]
      | held b =>
          rw [at_held_setStage]
          split_ifs with hb
          · subst hb
            simp [At, hstage, Ne.symm hx, hx]
          · simp [At, hx]
      | retired => simp [At, setStage, hx]
  · simp only [setStage, List.map_append, List.map_cons, List.map_nil]
    refine List.nodup_append.mpr ⟨h.retiredNodup, by simp, ?_⟩
    rintro x hx y hy rfl
    rw [List.mem_singleton.mp hy] at hx
    exact hnot hx

/-- A holder goes on with its task. -/
theorem Tokens.go (h : s.Tokens) {a : A} {φ φ' : Phase} (hstage : s.stage a = some (φ, t))
    (hqueue : s'.queue = s.queue) (hstage' : s'.stage = s.stage) (hadded : s'.added = s.added)
    (hretired : s'.retired = s.retired) : (s'.setStage a (some (φ', t))).Tokens := by
  refine h.keep hqueue (fun x b ↦ ?_) hadded hretired
  simp only [setStage, Function.update_apply, hstage']
  split_ifs with hb
  · subst hb
    simp [hstage]
  · rfl

theorem Tokens.step {m : Move A T} (h : s.Tokens) (hstep : s.step m = some s') : s'.Tokens := by
  cases m with
  | add t =>
      simp only [Custody.step] at hstep
      split_ifs at hstep with ht
      cases hstep
      exact h.add ht
  | take a q e =>
      simp only [Custody.step] at hstep
      split at hstep <;> cases hstep
      rename_i t rest hstage hqueue
      exact h.take hstage hqueue
  | work a c =>
      simp only [Custody.step] at hstep
      split at hstep
      · cases hstep
      · rename_i φ t hstage
        split at hstep
        · cases hstep
        · rename_i o hnext
          cases hstep
          cases o with
          | go φ' => exact h.go hstage rfl rfl rfl rfl
          | emit n φ' => exact h.go hstage rfl rfl rfl rfl
          | write st φ' =>
              simp only [act, Outcome.stage]
              split_ifs
              · exact h.go hstage rfl rfl rfl rfl
              · exact h.go hstage rfl rfl rfl rfl
          | put q counted => exact h.put hstage
          | retire r counted => exact h.retire r hstage
          | thrown => exact h.retire .threw hstage
  | write t st =>
      simp only [Custody.step] at hstep
      split_ifs at hstep <;> cases hstep
      · exact h.keep rfl (fun _ _ ↦ Iff.rfl) rfl rfl
      · exact h.keep rfl (fun _ _ ↦ Iff.rfl) rfl rfl
  | priority t p =>
      cases hstep
      exact h.keep rfl (fun _ _ ↦ Iff.rfl) rfl rfl

end Custody

/-! ## The scheduler without exceptions and before `finish` -/

/-- The callbacks return, and `finish` is not called. -/
def Action.Plain {ρ T : Type} : Action ρ T → Prop
  | .runner _ .throws | .main .throws | .finish => False
  | _ => True

/-- The phases of a runner. -/
def Phase.Running : Phase → Prop
  | .hand | .testStarted | .testCancelled => False
  | .finish r | .onFinish r | .finishWrite r | .drop r => r = .fail ∨ r = .exit
  | _ => True

/-- After a success, or when the task is paused. -/
def Phase.Back : Phase → Prop
  | .pass _ | .push _ _ => True
  | _ => False

/-- The thread of `schedule` before `finish`. -/
def Main.Scheduling {ρ T : Type} : Main ρ T → Prop
  | .idle | .schedule _ | .move _ => True
  | .work _ φ _ => φ = .hand
  | _ => False

/-- Why a runner does not pass a task on. -/
def Reason.Final (r : Reason) : Prop :=
  r = .startFailed ∨ r = .fail ∨ r = .exit ∨ r = .finished

/-- What a runner without exceptions makes of its task. -/
def Outcome.Running : Outcome → Prop
  | .go φ | .write _ φ | .emit _ φ => φ.Running
  | .put _ _ => True
  | .retire r _ => r.Final
  | .thrown => False

theorem Phase.Running.next {φ : Phase} {task : Task} {c : Choice} {o : Outcome} (h : φ.Running)
    (hc : c ≠ .throws) (hnext : φ.next task c = some o) : o.Running := by
  cases φ with
  | hand => cases h
  | testStarted => cases h
  | testCancelled => cases h
  | onStart =>
      simp only [Phase.next] at hnext
      split at hnext <;> cases hnext
      · trivial
      · trivial
      · exact hc rfl
  | onExecute =>
      simp only [Phase.next] at hnext
      split at hnext <;> cases hnext
      · trivial
      · exact .inl rfl
      · exact .inr rfl
      · exact .inr (.inr (.inr rfl))
      · exact hc rfl
  | onFinish r =>
      simp only [Phase.next] at hnext
      split at hnext <;> cases hnext
      · exact h
      · exact hc rfl
  | drop r =>
      cases hnext
      rcases h with rfl | rfl
      · exact .inr (.inl rfl)
      · exact .inr (.inr (.inl rfl))
  | executeCancelled =>
      simp only [Phase.next, Option.some.injEq] at hnext
      subst hnext
      split_ifs
      · exact .inr rfl
      · trivial
  | startRead =>
      simp only [Phase.next, Option.some.injEq] at hnext
      subst hnext
      split_ifs
      · trivial
      · exact .inl rfl
  | executeFinished =>
      simp only [Phase.next, Option.some.injEq] at hnext
      subst hnext
      split_ifs
      · exact .inr (.inr (.inr rfl))
      · trivial
  | finish r | finishWrite r =>
      cases hnext
      exact h
  | check | testPaused | executePaused =>
      simp only [Phase.next, Option.some.injEq] at hnext
      subst hnext
      split_ifs <;> trivial
  | startWrite | call | pass counted | push q counted =>
      cases hnext
      trivial

/-- Without exceptions the pointer to a task goes from the success of `execute` or
from a pause into a queue. -/
theorem Phase.Back.next {φ : Phase} {task : Task} {c : Choice} {o : Outcome} (h : φ.Back)
    (hnext : φ.next task c = some o) :
    (∃ q counted, o = .go (.push q counted)) ∨ ∃ q counted, o = .put q counted := by
  cases φ with
  | pass counted =>
      cases hnext
      exact .inl ⟨_, _, rfl⟩
  | push q counted =>
      cases hnext
      exact .inr ⟨_, _, rfl⟩
  | _ => cases h

namespace System

variable {ρ T : Type} [DecidableEq ρ] [DecidableEq T] {s s' : System ρ T} {limit : ℕ}

/-- The invariant of runs without exceptions and before `finish`. -/
structure Steady (s : System ρ T) : Prop where
  tokens : s.custody.Tokens
  runners : ∀ i φ t, (s.runner i).pc = .work φ t → φ.Running
  main : s.main.Scheduling
  retired : ∀ x ∈ s.retired, x.2.Final

theorem steady_initial : (initial : System ρ T).Steady where
  tokens := by
    rw [custody_initial]
    exact Custody.tokens_initial
  runners _ _ _ h := by cases h
  main := trivial
  retired _ h := by cases h

theorem tokens_step {a : Action ρ T} (h : s.custody.Tokens) (hstep : s.step limit a = some s') :
    s'.custody.Tokens := by
  rcases follows hstep with ⟨-, heq⟩ | ⟨m, -, hmove⟩
  · rw [heq]
    exact h
  · exact h.step hmove

theorem retired_act {t : T} {o : Outcome} (h : ∀ x ∈ s.retired, x.2.Final) (ho : o.Running) :
    ∀ x ∈ (s.act t o).retired, x.2.Final := by
  cases o with
  | write st φ =>
      simp only [act]
      split_ifs <;> exact h
  | retire r counted =>
      intro x hx
      rcases List.mem_append.mp hx with hx | hx
      · exact h x hx
      · rw [List.mem_singleton.mp hx]
        exact ho
  | thrown => cases ho
  | _ => exact h

theorem Steady.stepRunner {i : ρ} {c : Choice} (h : s.Steady) (hc : c ≠ .throws)
    (hstep : s.stepRunner limit i c = some s') :
    (∀ i φ t, (s'.runner i).pc = .work φ t → φ.Running) ∧ s'.main = s.main ∧
      ∀ x ∈ s'.retired, x.2.Final := by
  -- a step that leaves the runner without a task
  have hidle : ∀ (s₁ : System ρ T) (r : Runner T), s₁.runner = s.runner →
      (∀ φ t, r.pc ≠ .work φ t) →
      ∀ j φ t, ((s₁.setRunner i r).runner j).pc = .work φ t → φ.Running := by
    intro s₁ r hrunner hr j φ t hj
    rw [setRunner_runner, hrunner] at hj
    split_ifs at hj
    · exact absurd hj (hr φ t)
    · exact h.runners j φ t hj
  unfold System.stepRunner at hstep
  cases hpc : (s.runner i).pc with
  | unstarted => simp [hpc] at hstep
  | exited => simp [hpc] at hstep
  | outer =>
      simp only [hpc, Option.some.injEq] at hstep
      subst hstep
      exact ⟨hidle s _ rfl (by intro φ t; split_ifs <;> simp), rfl, h.retired⟩
  | inner =>
      simp only [hpc, Option.some.injEq] at hstep
      subst hstep
      exact ⟨hidle s _ rfl (by intro φ t; split_ifs <;> simp), rfl, h.retired⟩
  | count =>
      simp only [hpc, Option.some.injEq] at hstep
      subst hstep
      exact ⟨hidle s _ rfl (by intro φ t; split_ifs <;> simp), rfl, h.retired⟩
  | pop =>
      simp only [hpc] at hstep
      split at hstep <;> cases hstep
      · exact ⟨hidle s _ rfl (by simp), rfl, h.retired⟩
      · refine ⟨fun j φ t hj ↦ ?_, rfl, h.retired⟩
        rw [setRunner_runner] at hj
        split_ifs at hj
        · cases hj
          trivial
        · exact h.runners j φ t hj
  | work φ t =>
      simp only [hpc] at hstep
      cases hnext : φ.next (s.task t) c with
      | none => simp [hnext] at hstep
      | some o =>
          simp only [hnext, Option.some.injEq] at hstep
          subst hstep
          have ho := (h.runners i φ t hpc).next hc hnext
          refine ⟨fun j ψ x hj ↦ ?_, act_main, retired_act h.retired ho⟩
          rw [setRunner_runner, act_runner] at hj
          split_ifs at hj
          · cases o with
            | go ψ' | write st ψ' | emit n ψ' =>
                cases hj
                exact ho
            | put q counted | retire r counted => cases counted <;> cases hj
            | thrown => cases hj
          · exact h.runners j ψ x hj

theorem Steady.stepMain {c : Choice} (h : s.Steady) (hstep : s.stepMain c = some s') :
    s'.runner = s.runner ∧ s'.main.Scheduling ∧ s'.retired = s.retired := by
  have hafter : ∀ q : Queue, (q.after.elim .idle .schedule : Main ρ T).Scheduling := by
    intro q
    cases q <;> trivial
  have hmain := h.main
  unfold System.stepMain at hstep
  cases hpc : s.main with
  | idle => simp [hpc] at hstep
  | done => simp [hpc] at hstep
  | aborted => simp [hpc] at hstep
  | schedule q =>
      simp only [hpc] at hstep
      split at hstep <;> cases hstep
      · exact ⟨rfl, trivial, rfl⟩
      · exact ⟨rfl, hafter q, rfl⟩
  | move q =>
      simp only [hpc] at hstep
      split at hstep <;> cases hstep
      · exact ⟨rfl, hafter q, rfl⟩
      · exact ⟨rfl, rfl, rfl⟩
  | work q φ t =>
      rw [hpc] at hmain
      have hhand : φ = .hand := hmain
      subst hhand
      simp only [hpc, Phase.next] at hstep
      cases hstep
      exact ⟨rfl, trivial, rfl⟩
  | stop rest =>
      rw [hpc] at hmain
      cases hmain
  | join i rest =>
      rw [hpc] at hmain
      cases hmain
  | drain q =>
      rw [hpc] at hmain
      cases hmain

theorem Steady.step {a : Action ρ T} (h : s.Steady) (ha : a.Plain)
    (hstep : s.step limit a = some s') : s'.Steady := by
  have htokens := tokens_step h.tokens hstep
  cases a with
  | runner i c =>
      obtain ⟨hrunners, hmain, hretired⟩ := h.stepRunner (by rintro rfl; exact ha) hstep
      exact ⟨htokens, hrunners, hmain ▸ h.main, hretired⟩
  | main c =>
      obtain ⟨hrunner, hmain, hretired⟩ := h.stepMain hstep
      exact ⟨htokens, hrunner ▸ h.runners, hmain, hretired ▸ h.retired⟩
  | add t =>
      simp only [System.step] at hstep
      split_ifs at hstep
      cases hstep
      exact ⟨htokens, h.runners, h.main, h.retired⟩
  | start i =>
      simp only [System.step] at hstep
      split at hstep <;> cases hstep
      refine ⟨htokens, fun j φ t hj ↦ ?_, h.main, h.retired⟩
      rw [setRunner_runner] at hj
      split_ifs at hj
      exact h.runners j φ t hj
  | schedule =>
      simp only [System.step] at hstep
      split at hstep <;> cases hstep
      exact ⟨htokens, h.runners, trivial, h.retired⟩
  | finish => cases ha
  | pause t | cancel t =>
      simp only [System.step] at hstep
      split_ifs at hstep <;> cases hstep <;> exact ⟨htokens, h.runners, h.main, h.retired⟩
  | write k =>
      simp only [System.step] at hstep
      split at hstep <;> cases hstep
      split_ifs at htokens ⊢ <;> exact ⟨htokens, h.runners, h.main, h.retired⟩
  | resume t | setPriority t p =>
      cases hstep
      exact ⟨htokens, h.runners, h.main, h.retired⟩

/-- What is promised of the tasks of a scheduler. -/
structure Scheduled (limit : ℕ) (s : System ρ T) : Prop where
  placed : ∀ t ∈ s.added, ∃! p, s.custody.At t p
  queued : ∀ q, (s.queue q).Nodup
  alone : ∀ i j φ ψ t, (s.runner i).pc = .work φ t → (s.runner j).pc = .work ψ t → i = j
  retired : ∀ x ∈ s.retired, x.2.Final
  /-- The thread of `schedule` holds a task between `pop` and `push` only. -/
  hand : ∀ q φ t, s.main = .work q φ t → φ = .hand
  success : ∀ i t s', (s.runner i).pc = .work .onExecute t →
    s.stepRunner limit i (.execute .success) = some s' → (s'.runner i).pc = .work (.pass true) t
  paused : ∀ i t φ c s', (s.runner i).pc = .work φ t → φ = .testPaused ∨ φ = .executePaused →
    (s.task t).state = .paused → s.stepRunner limit i c = some s' →
    ∃ counted, (s'.runner i).pc = .work (.pass counted) t
  back : ∀ i φ t c, (s.runner i).pc = .work φ t → φ.Back → ∃ s', s.stepRunner limit i c = some s' ∧
    ((∃ ψ, (s'.runner i).pc = .work ψ t ∧ ψ.Back) ∨ ∃ q, t ∈ s'.queue q)

theorem stepRunner_work {i : ρ} {φ : Phase} {t : T} {c : Choice} {o : Outcome}
    (hpc : (s.runner i).pc = .work φ t) (hnext : φ.next (s.task t) c = some o) :
    s.stepRunner limit i c =
      some ((s.act t o).setRunner i { s.runner i with pc := o.pc t }) := by
  simp only [stepRunner, hpc, hnext]

theorem Steady.scheduled (h : s.Steady) (limit : ℕ) : s.Scheduled limit where
  placed t ht := by
    obtain ⟨p, hp⟩ := h.tokens.placed t ht
    exact ⟨p, hp, fun p' hp' ↦ h.tokens.one t p' p hp' hp⟩
  queued := h.tokens.nodup
  alone i j φ ψ t hi hj := by
    have hatI : s.custody.At t (.held (some i)) := ⟨φ, by simp [custody, stage, hi, Pc.stage]⟩
    have hatJ : s.custody.At t (.held (some j)) := ⟨ψ, by simp [custody, stage, hj, Pc.stage]⟩
    cases h.tokens.one t _ _ hatI hatJ
    rfl
  retired := h.retired
  hand q φ t hmain := by
    have hscheduling := h.main
    rw [hmain] at hscheduling
    exact hscheduling
  success i t s' hpc hstep := by
    rw [stepRunner_work hpc rfl] at hstep
    cases hstep
    rw [setRunner_runner, if_pos rfl]
    rfl
  paused i t φ c s' hpc hφ hstate hstep := by
    obtain ⟨counted, hnext⟩ : ∃ counted, φ.next (s.task t) c = some (.go (.pass counted)) := by
      rcases hφ with rfl | rfl
      · exact ⟨false, by simp [Phase.next, hstate]⟩
      · exact ⟨true, by simp [Phase.next, hstate]⟩
    rw [stepRunner_work hpc hnext] at hstep
    cases hstep
    refine ⟨counted, ?_⟩
    rw [setRunner_runner, if_pos rfl]
    rfl
  back i φ t c hpc hback := by
    obtain ⟨o, hnext⟩ : ∃ o, φ.next (s.task t) c = some o := by
      cases φ with
      | pass counted | push q counted => exact ⟨_, rfl⟩
      | _ => cases hback
    refine ⟨_, stepRunner_work hpc hnext, ?_⟩
    rcases hback.next hnext with ⟨q, counted, rfl⟩ | ⟨q, counted, rfl⟩
    · refine .inl ⟨.push q counted, ?_, trivial⟩
      rw [setRunner_runner, if_pos rfl]
      rfl
    · refine .inr ⟨q, ?_⟩
      simp [act, setQueue, setRunner]

/-- Tasks are neither lost nor duplicated, whatever the order of the steps. -/
theorem tasks_are_tokens (limit : ℕ) (s : System ρ T)
    (h : Reaches (step limit) (fun _ a ↦ a.Plain) initial s) : s.Scheduled limit := by
  have hsteady : s.Steady :=
    h.invariant steady_initial fun _ _ _ hs ha hstep ↦ hs.step ha hstep
  exact hsteady.scheduled limit

/-- A task that is paused before its start, on its way back to the run queue. -/
def handRun : List (Action Unit Unit) :=
  [.add (), .pause (), .write 0, .start (), .runner () .returns, .runner () .returns,
    .runner () .returns, .runner () .returns, .runner () .returns, .runner () .returns,
    .runner () .returns, .schedule, .main (.timeout true), .main .returns]

/-- Whether the thread of `schedule` holds a task that was added. -/
def inHand (s : System Unit Unit) : Bool :=
  s.custody.stage none = some (.hand, ()) ∧ s.added = [()]

theorem exists_inHand : ∃ s : System Unit Unit,
    Reaches (step 0) (fun _ a ↦ a.Plain) initial s ∧ inHand s = true := by
  have hplain : ∀ a ∈ handRun, a.Plain := by simp [handRun, Action.Plain]
  exact exists_reaches handRun (fun _ ↦ hplain) (by decide)

/-- Between the `pop` and the `push` of `schedule` a task is in no queue, with no
runner and not retired. -/
theorem not_placed_inHand : ¬ ∀ s : System Unit Unit,
    Reaches (step 0) (fun _ a ↦ a.Plain) initial s → ∀ t ∈ s.added,
      ∃! p, p ≠ .held none ∧ s.custody.At t p := by
  intro hall
  obtain ⟨s, hreach, hs⟩ := exists_inHand
  have hsteady : s.Steady :=
    hreach.invariant steady_initial fun _ _ _ hs ha hstep ↦ hs.step ha hstep
  obtain ⟨hstage, hadded⟩ := of_decide_eq_true hs
  obtain ⟨p, ⟨hne, hp⟩, -⟩ := hall s hreach () (by rw [hadded]; exact List.mem_singleton_self _)
  exact hne (hsteady.tokens.one () p _ hp ⟨.hand, hstage⟩)

theorem tasks_are_tokens_inHand : ∃ s : System Unit Unit, inHand s = true ∧ s.Scheduled 0 := by
  obtain ⟨s, hreach, hs⟩ := exists_inHand
  exact ⟨s, hs, tasks_are_tokens 0 s hreach⟩

end System

end WiseKernel.Core.Task
