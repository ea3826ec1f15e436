import WiseKernel.Core.TaskTokens

/-!
# One task of the system

A step of the system is, for one task, a step of whoever holds it, a write of the
application, or nothing.
-/

namespace WiseKernel.Core.Task

open WiseKernel.Lib

/-- What has happened to a task: `on_start` has returned true, `on_finish` was
called, `finish` or `cancel` has written the state. -/
structure View where
  state : Status
  begun : Bool
  ended : Bool
  isOver : Bool
  cancelled : Bool
  deriving DecidableEq, Repr

namespace View

def note (v : View) : Note → View
  | .started => { v with begun := true }
  | .onFinish => { v with ended := true }
  | .finished => { v with isOver := true }
  | .cancelled => { v with cancelled := true }
  | .onStart | .onExecute => v

/-- `finish` writes the state. -/
def write (v : View) (st : Status) : View :=
  { v with state := st, isOver := v.isOver || st = .finished }

/-- The application writes the state. -/
def set (v : View) (st : Status) : View :=
  { v with state := st, cancelled := v.cancelled || st = .cancelled }

end View

/-- Where a task is. -/
inductive Loc
  | nowhere
  | queued
  | held (φ : Phase)
  | retired
  deriving DecidableEq, Repr

def Outcome.loc : Outcome → Loc
  | .go φ | .write _ φ | .emit _ φ => .held φ
  | .put _ _ => .queued
  | .retire _ _ | .thrown => .retired

def Outcome.view (v : View) : Outcome → View
  | .write st _ => v.write st
  | .emit n _ => v.note n
  | _ => v

/-- A step as one task sees it. -/
inductive Glimpse
  | stay
  | add
  | take (e : Entry)
  | work (c : Choice)
  | write (st : Status)
  deriving DecidableEq, Repr

inductive Local : View → Loc → Glimpse → View → Loc → Prop
  | stay (v : View) (l : Loc) : Local v l .stay v l
  | add (v : View) : Local v .nowhere .add v .queued
  | take (v : View) (e : Entry) : Local v .queued (.take e) v (.held e.phase)
  | work {v : View} {φ : Phase} {p : Priority} {c : Choice} {o : Outcome}
      (hnext : φ.next ⟨v.state, p⟩ c = some o) : Local v (.held φ) (.work c) (o.view v) o.loc
  | write (v : View) (l : Loc) (st : Status) : Local v l (.write st) (v.set st) l

namespace Custody

variable {A T : Type} [DecidableEq A] [DecidableEq T] {s s' : Custody A T} {t x : T} {l l' : Loc}

def view (s : Custody A T) (t : T) : View where
  state := (s.task t).state
  begun := (t, .started) ∈ s.trace
  ended := (t, .onFinish) ∈ s.trace
  isOver := (t, .finished) ∈ s.trace
  cancelled := (t, .cancelled) ∈ s.trace

def LocOf (s : Custody A T) (t : T) : Loc → Prop
  | .nowhere => t ∉ s.added
  | .queued => ∃ q, t ∈ s.queue q
  | .held φ => ∃ a, s.stage a = some (φ, t)
  | .retired => t ∈ s.retired.map Prod.fst

/-- What a move is for one task. -/
def Shows (s : Custody A T) (t : T) (m : Move A T) : Glimpse → Prop
  | .stay => True
  | .add => m = .add t
  | .take e => ∃ a q, m = .take a q e
  | .work c => ∃ a φ, m = .work a c ∧ s.stage a = some (φ, t)
  | .write st => m = .write t st

theorem Tokens.loc_eq (h : s.Tokens) (hl : s.LocOf t l) (hl' : s.LocOf t l') : l = l' := by
  have hat : ∀ {l}, l ≠ .nowhere → s.LocOf t l → ∃ p, s.At t p ∧
      (l = .queued ∧ (∃ q, p = .queue q) ∨ (∃ φ a, l = .held φ ∧ p = .held a ∧
        s.stage a = some (φ, t)) ∨ l = .retired ∧ p = .retired) := by
    intro l hne hl
    cases l with
    | nowhere => exact absurd rfl hne
    | queued =>
        obtain ⟨q, hq⟩ := hl
        exact ⟨.queue q, hq, .inl ⟨rfl, q, rfl⟩⟩
    | held φ =>
        obtain ⟨a, ha⟩ := hl
        exact ⟨.held a, ⟨φ, ha⟩, .inr (.inl ⟨φ, a, rfl, rfl, ha⟩)⟩
    | retired => exact ⟨.retired, hl, .inr (.inr ⟨rfl, rfl⟩)⟩
  by_cases hn : l = .nowhere
  · subst hn
    by_contra hne
    obtain ⟨p, hp, -⟩ := hat (Ne.symm hne) hl'
    exact hl (h.known t p hp)
  · by_cases hn' : l' = .nowhere
    · subst hn'
      obtain ⟨p, hp, -⟩ := hat hn hl
      exact absurd (h.known t p hp) hl'
    · obtain ⟨p, hp, hcase⟩ := hat hn hl
      obtain ⟨p', hp', hcase'⟩ := hat hn' hl'
      have hpp := h.one t p p' hp hp'
      subst hpp
      rcases hcase with ⟨rfl, q, rfl⟩ | ⟨φ, a, rfl, rfl, ha⟩ | ⟨rfl, rfl⟩ <;>
        rcases hcase' with ⟨rfl, q', hq⟩ | ⟨ψ, b, rfl, hb, hstage⟩ | ⟨rfl, hr⟩
      all_goals first | rfl | cases hq | cases hb | cases hr
      rw [ha] at hstage
      cases hstage
      rfl

theorem Tokens.exists_loc (h : s.Tokens) (t : T) : ∃ l, s.LocOf t l := by
  by_cases ht : t ∈ s.added
  · obtain ⟨p, hp⟩ := h.placed t ht
    cases p with
    | queue q => exact ⟨.queued, q, hp⟩
    | held a =>
        obtain ⟨φ, hφ⟩ := hp
        exact ⟨.held φ, a, hφ⟩
    | retired => exact ⟨.retired, hp⟩
  · exact ⟨.nowhere, ht⟩

theorem view_emit (n : Note) :
    (s.emit t n).view x = if x = t then (s.view t).note n else s.view x := by
  have hmem : ∀ k, (x, k) ∈ (s.emit t n).trace ↔ (x, k) ∈ s.trace ∨ x = t ∧ k = n := by
    intro k
    simp [emit]
  split_ifs with hx
  · subst hx
    simp only [view, hmem, true_and]
    cases n <;> simp [View.note, emit]
  · simp only [view, hmem, hx, false_and, or_false]
    rfl

theorem view_setState (st : Status) :
    (s.setState t st).view x = if x = t then { s.view t with state := st } else s.view x := by
  simp only [view, setState, Function.update_apply]
  split_ifs with hx
  · subst hx
    rfl
  · rfl

theorem view_act (o : Outcome) :
    (s.act t o).view x = if x = t then o.view (s.view t) else s.view x := by
  cases o with
  | write st φ =>
      simp only [act]
      split_ifs with hst hx hx
      · subst hst
        rw [view_emit, if_pos hx, view_setState, if_pos rfl]
        simp [Outcome.view, View.write, View.note]
      · rw [view_emit, if_neg hx, view_setState, if_neg hx]
      · rw [view_setState, if_pos hx]
        simp [Outcome.view, View.write, hst]
      · rw [view_setState, if_neg hx]
  | emit n φ => exact view_emit n
  | go φ | put q counted | retire r counted | thrown =>
      split_ifs with hx
      · rw [hx]
        rfl
      · rfl

/-- The location of the task that a step of its holder leads to. -/
theorem loc_work {a : A} {o : Outcome} : ((s.act t o).setStage a (o.stage t)).LocOf t o.loc := by
  cases o with
  | go φ | write st φ | emit n φ => exact ⟨a, Function.update_self ..⟩
  | put q counted => exact ⟨q, by simp [act, setQueue, setStage]⟩
  | retire r counted | thrown =>
      change t ∈ List.map _ (_ ++ _)
      simp

/-- Other tasks stay where they are. -/
theorem loc_work_other {a : A} {φ : Phase} {o : Outcome} (hstage : s.stage a = some (φ, t))
    (hx : x ≠ t) : ((s.act t o).setStage a (o.stage t)).LocOf x l ↔ s.LocOf x l := by
  have hother : (s.act t o).added = s.added ∧ (∀ q, x ∈ (s.act t o).queue q ↔ x ∈ s.queue q) ∧
      (s.act t o).stage = s.stage ∧
      (x ∈ (s.act t o).retired.map Prod.fst ↔ x ∈ s.retired.map Prod.fst) := by
    cases o with
    | write st φ =>
        simp only [act]
        split_ifs <;> exact ⟨rfl, fun _ ↦ Iff.rfl, rfl, Iff.rfl⟩
    | put q counted =>
        refine ⟨rfl, fun q' ↦ ?_, rfl, Iff.rfl⟩
        simp only [act, setQueue, Function.update_apply]
        split_ifs with hq
        · simp [hq, hx]
        · rfl
    | retire r counted | thrown => simp [act, hx]
    | go φ | emit n φ => exact ⟨rfl, fun _ ↦ Iff.rfl, rfl, Iff.rfl⟩
  obtain ⟨hadded, hqueue, hstage', hretired⟩ := hother
  cases l with
  | nowhere =>
      change x ∉ (s.act t o).added ↔ _
      rw [hadded]
      rfl
  | queued => exact exists_congr hqueue
  | retired => exact hretired
  | held ψ =>
      apply exists_congr
      intro b
      simp only [setStage, Function.update_apply, hstage']
      split_ifs with hb
      · subst hb
        rw [hstage]
        cases o <;> simp [Outcome.stage, Ne.symm hx]
      · rfl

/-- A step for one task. -/
theorem Tokens.local_step {m : Move A T} (h : s.Tokens) (hstep : s.step m = some s')
    (hl : s'.LocOf x l') :
    ∃ l g, s.LocOf x l ∧ s.Shows x m g ∧ Local (s.view x) l g (s'.view x) l' := by
  have h' := h.step hstep
  cases m with
  | add t =>
      simp only [Custody.step] at hstep
      split_ifs at hstep with ht
      cases hstep
      by_cases hx : x = t
      · subst hx
        have hqueued : LocOf { s.setQueue .run (s.queue .run ++ [x]) with
            added := s.added ++ [x] } x .queued := ⟨.run, by simp [setQueue]⟩
        cases h'.loc_eq hl hqueued
        exact ⟨.nowhere, .add, ht, rfl, .add _⟩
      · refine ⟨l', .stay, ?_, trivial, .stay _ _⟩
        cases l' with
        | nowhere =>
            intro hadded
            exact hl (List.mem_append_left _ hadded)
        | queued =>
            obtain ⟨q, hq⟩ := hl
            refine ⟨q, ?_⟩
            simp only [setQueue, Function.update_apply] at hq
            split_ifs at hq with hrun
            · subst hrun
              simpa [hx] using hq
            · exact hq
        | held φ => exact hl
        | retired => exact hl
  | take a q e =>
      simp only [Custody.step] at hstep
      split at hstep <;> cases hstep
      rename_i t rest hstage hqueue
      by_cases hx : x = t
      · subst hx
        have hheld : LocOf ((s.setQueue q rest).setStage a (some (e.phase, x))) x
            (.held e.phase) := ⟨a, Function.update_self ..⟩
        cases h'.loc_eq hl hheld
        exact ⟨.queued, .take e, ⟨q, by rw [hqueue]; exact List.mem_cons_self⟩, ⟨a, q, rfl⟩,
          .take _ _⟩
      · refine ⟨l', .stay, ?_, trivial, .stay _ _⟩
        cases l' with
        | nowhere => exact hl
        | retired => exact hl
        | queued =>
            obtain ⟨q', hq⟩ := hl
            refine ⟨q', ?_⟩
            simp only [setStage, setQueue, Function.update_apply] at hq
            split_ifs at hq with hrun
            · subst hrun
              rw [hqueue]
              exact List.mem_cons_of_mem t hq
            · exact hq
        | held φ =>
            obtain ⟨b, hb⟩ := hl
            simp only [setStage, Function.update_apply] at hb
            split_ifs at hb
            · cases hb
              exact absurd rfl hx
            · exact ⟨b, hb⟩
  | work a c =>
      simp only [Custody.step] at hstep
      split at hstep
      · cases hstep
      · rename_i φ t hstage
        split at hstep
        · cases hstep
        · rename_i o hnext
          cases hstep
          have hview : ∀ s₁ : Custody A T, ∀ w, (s₁.setStage a w).view x = s₁.view x :=
            fun _ _ ↦ rfl
          rw [hview, view_act]
          by_cases hx : x = t
          · subst hx
            cases h'.loc_eq hl loc_work
            rw [if_pos rfl]
            have hlocal : φ.next ⟨(s.view x).state, (s.task x).priority⟩ c = some o := hnext
            exact ⟨.held φ, .work c, ⟨a, hstage⟩, ⟨a, φ, rfl, hstage⟩, .work hlocal⟩
          · rw [if_neg hx]
            exact ⟨l', .stay, (loc_work_other hstage hx).mp hl, trivial, .stay _ _⟩
  | write t st =>
      have hview : s'.view x = if x = t then (s.view t).set st else s.view x := by
        simp only [Custody.step] at hstep
        split_ifs at hstep with hst <;> cases hstep
        · split_ifs with hx
          · rw [view_emit, if_pos hx, view_setState, if_pos rfl]
            simp [View.set, View.note, hst]
          · rw [view_emit, if_neg hx, view_setState, if_neg hx]
        · rw [view_setState]
          split_ifs
          · simp [View.set, hst]
          · rfl
      have hloc : s.LocOf x l' := by
        simp only [Custody.step] at hstep
        split_ifs at hstep <;> cases hstep <;> cases l' <;> exact hl
      rw [hview]
      by_cases hx : x = t
      · subst hx
        rw [if_pos rfl]
        exact ⟨l', .write st, hloc, rfl, .write _ _ _⟩
      · rw [if_neg hx]
        exact ⟨l', .stay, hloc, trivial, .stay _ _⟩
  | priority t p =>
      cases hstep
      have hview : view { s with task := Function.update s.task t { s.task t with priority := p } }
          x = s.view x := by
        simp only [view, Function.update_apply]
        split_ifs with hx
        · rw [hx]
        · rfl
      refine ⟨l', .stay, ?_, trivial, ?_⟩
      · cases l' <;> exact hl
      · rw [hview]
        exact .stay _ _

/-- A move makes at most one note: that of a write, or that of a holder. -/
theorem trace_step {m : Move A T} (hstep : s.step m = some s') :
    s'.trace = s.trace ∨ ∃ t n, s'.trace = s.trace ++ [(t, n)] ∧
      (n = .cancelled ∨ n = .finished ∨ ∃ a φ ψ c, s.stage a = some (φ, t) ∧
        φ.next (s.task t) c = some (.emit n ψ)) := by
  cases m with
  | add t =>
      simp only [Custody.step] at hstep
      split_ifs at hstep
      cases hstep
      exact .inl rfl
  | take a q e =>
      simp only [Custody.step] at hstep
      split at hstep <;> cases hstep
      exact .inl rfl
  | priority t p =>
      cases hstep
      exact .inl rfl
  | write t st =>
      simp only [Custody.step] at hstep
      split_ifs at hstep <;> cases hstep
      · exact .inr ⟨t, .cancelled, rfl, .inl rfl⟩
      · exact .inl rfl
  | work a c =>
      simp only [Custody.step] at hstep
      split at hstep
      · cases hstep
      · rename_i φ t hstage
        split at hstep
        · cases hstep
        · rename_i o hnext
          cases hstep
          cases o with
          | go ψ | put q counted | retire r counted | thrown => exact .inl rfl
          | emit n ψ => exact .inr ⟨t, n, rfl, .inr (.inr ⟨a, φ, ψ, c, hstage, hnext⟩)⟩
          | write st ψ =>
              simp only [act]
              split_ifs
              · exact .inr ⟨t, .finished, rfl, .inr (.inl rfl)⟩
              · exact .inl rfl

end Custody

end WiseKernel.Core.Task
