import WiseKernel.Core.MemTracker
import WiseKernel.Lib.Runs

/-!
# Operations of several threads

A thread pushes its operation and tries the lock.  The thread that gets it applies
all that is in the queue; a thread that does not leaves its operation to the
holder.  `report` takes the same lock and applies nothing.
-/

namespace WiseKernel.Core

open Lib

namespace MemTracker

/-! ## Steps -/

/-- Where a thread is in `on_alloc`, `on_dealloc` or `report`. -/
inductive Place
  | idle
  /-- the operation is in the queue -/
  | pushed
  /-- the lock is held, and the loop is running -/
  | draining
  /-- the lock is held by `report` -/
  | reporting
  /-- the lock is held, and nothing but `unlock` is left -/
  | leaving
  deriving DecidableEq, Repr

def Place.holds : Place → Bool
  | .draining | .reporting | .leaving => true
  | .idle | .pushed => false

inductive Action
  | enable
  | disable
  | push (op : RawOp)
  | tryLock
  /-- `ops_.pop`, and what was popped is applied -/
  | pop
  | unlock
  /-- `report` is called, and has got the lock -/
  | lock
  /-- the statistics are read -/
  | read
  deriving DecidableEq, Repr

/-- The tracker and its threads.  `tracker` is `none` where an assertion would have
failed; `made` and `applied` record the operations, `reports` what was reported. -/
structure Callers (ι : Type) where
  enabled : Bool := true
  holder : Option ι := none
  ops : List RawOp := []
  tracker : Option MemTracker := some {}
  made : List RawOp := []
  applied : List RawOp := []
  reports : List Report := []
  place : ι → Place := fun _ ↦ .idle

namespace Callers

variable {ι : Type} [DecidableEq ι]

def go (t : Callers ι) (i : ι) (p : Place) : Callers ι :=
  { t with place := Function.update t.place i p }

variable (crc32 : String → UInt32)

/-- The step of thread `i`; `none` where the thread is elsewhere, or would wait for
the lock. -/
def step (t : Callers ι) : ι × Action → Option (Callers ι)
  | (i, a) =>
      match t.place i, a with
      | .idle, .enable => some { t with enabled := true }
      | .idle, .disable => some { t with enabled := false }
      | .idle, .push op =>
          if t.enabled then
            some (go { t with ops := t.ops ++ [op], made := t.made ++ [op] } i .pushed)
          else some t
      | .pushed, .tryLock =>
          match t.holder with
          | some _ => some (t.go i .idle)
          | none => some (go { t with holder := some i } i .draining)
      | .draining, .pop =>
          match t.ops with
          | op :: ops =>
              some { t with
                ops := ops
                tracker := t.tracker.bind (MemTracker.apply crc32 · op)
                applied := t.applied ++ [op] }
          | [] => some (t.go i .leaving)
      | .idle, .lock =>
          match t.holder with
          | some _ => none
          | none => some (go { t with holder := some i } i .reporting)
      | .reporting, .read =>
          some (go { t with reports := t.reports ++ (t.tracker.map report).toList } i .leaving)
      | .leaving, .unlock => some (go { t with holder := none } i .idle)
      | _, _ => none

/-- The lock is not refused by a thread whose loop is over, or that has none. -/
def InTime (t : Callers ι) : ι × Action → Prop
  | (_, .tryLock) => ∀ j, t.holder = some j → t.place j = .draining
  | _ => True

/-! ## What a step can do -/

variable {crc32} {t t' : Callers ι} {i : ι} {a : Action}

/-- The steps of thread `i` that change more than the switch. -/
inductive Moves (crc32 : String → UInt32) (t : Callers ι) (i : ι) : Action → Callers ι → Prop
  | switched (a : Action) (b : Bool) : Moves crc32 t i a { t with enabled := b }
  | pushed (op : RawOp) : t.place i = .idle →
      Moves crc32 t i (.push op)
        (go { t with ops := t.ops ++ [op], made := t.made ++ [op] } i .pushed)
  | refused (j : ι) : t.place i = .pushed → t.holder = some j →
      Moves crc32 t i .tryLock (t.go i .idle)
  | acquired : t.place i = .pushed → t.holder = none →
      Moves crc32 t i .tryLock (go { t with holder := some i } i .draining)
  | popped (op : RawOp) (ops : List RawOp) : t.place i = .draining → t.ops = op :: ops →
      Moves crc32 t i .pop
        { t with
          ops := ops
          tracker := t.tracker.bind (MemTracker.apply crc32 · op)
          applied := t.applied ++ [op] }
  | emptied : t.place i = .draining → t.ops = [] → Moves crc32 t i .pop (t.go i .leaving)
  | locked : t.place i = .idle → t.holder = none →
      Moves crc32 t i .lock (go { t with holder := some i } i .reporting)
  | reported (reports : List Report) : t.place i = .reporting →
      Moves crc32 t i .read (go { t with reports := reports } i .leaving)
  | unlocked : t.place i = .leaving →
      Moves crc32 t i .unlock (go { t with holder := none } i .idle)

theorem moves_of_step (h : t.step crc32 (i, a) = some t') : Moves crc32 t i a t' := by
  cases hplace : t.place i with
  | idle =>
      cases a with
      | enable =>
          simp only [step, hplace] at h
          cases h
          exact .switched _ true
      | disable =>
          simp only [step, hplace] at h
          cases h
          exact .switched _ false
      | push op =>
          simp only [step, hplace] at h
          split at h
          · cases h
            exact .pushed op hplace
          · cases h
            exact .switched _ t.enabled
      | lock =>
          simp only [step, hplace] at h
          split at h
          · cases h
          next hholder =>
            cases h
            exact .locked hplace hholder
      | tryLock | pop | unlock | read => simp [step, hplace] at h
  | pushed =>
      cases a with
      | tryLock =>
          simp only [step, hplace] at h
          split at h
          next j hholder =>
            cases h
            exact .refused j hplace hholder
          next hholder =>
            cases h
            exact .acquired hplace hholder
      | enable | disable | push _ | pop | unlock | lock | read => simp [step, hplace] at h
  | draining =>
      cases a with
      | pop =>
          simp only [step, hplace] at h
          split at h
          next op ops hops =>
            cases h
            exact .popped op ops hplace hops
          next hops =>
            cases h
            exact .emptied hplace hops
      | enable | disable | push _ | tryLock | unlock | lock | read => simp [step, hplace] at h
  | reporting =>
      cases a with
      | read =>
          simp only [step, hplace] at h
          cases h
          exact .reported _ hplace
      | enable | disable | push _ | tryLock | pop | unlock | lock => simp [step, hplace] at h
  | leaving =>
      cases a with
      | unlock =>
          simp only [step, hplace] at h
          cases h
          exact .unlocked hplace
      | enable | disable | push _ | tryLock | pop | lock | read => simp [step, hplace] at h

@[simp] theorem go_place_self (p : Place) : (t.go i p).place i = p := Function.update_self ..

@[simp] theorem go_place_of_ne {j : ι} (p : Place) (h : j ≠ i) : (t.go i p).place j = t.place j :=
  Function.update_of_ne h ..

/-! ## Order -/

/-- The operations are applied in the order in which they are pushed. -/
structure InOrder (crc32 : String → UInt32) (t : Callers ι) : Prop where
  made : t.applied ++ t.ops = t.made
  tracker : t.tracker = t.applied.foldlM (MemTracker.apply crc32) {}

theorem InOrder.step (h : InOrder crc32 t) (hstep : t.step crc32 (i, a) = some t') :
    InOrder crc32 t' := by
  cases moves_of_step hstep with
  | pushed op _ =>
      refine ⟨?_, h.tracker⟩
      change t.applied ++ (t.ops ++ [op]) = t.made ++ [op]
      rw [← h.made, List.append_assoc]
  | popped op ops _ hops =>
      constructor
      · rw [← h.made, hops, List.append_assoc, List.singleton_append]
      · dsimp only
        rw [List.foldlM_append, ← h.tracker]
        simp
  | switched _ _ | refused _ _ _ | acquired _ _ | emptied _ _ | locked _ _ | reported _ _
  | unlocked _ => exact ⟨h.made, h.tracker⟩

/-! ## The lock -/

/-- The holder of the lock is the thread that stands behind it. -/
def Locked (t : Callers ι) : Prop := ∀ j, t.holder = some j ↔ (t.place j).holds = true

theorem Locked.go_of_holds (h : Locked t) (hi : (t.place i).holds = true) {p : Place}
    (hp : p.holds = true) : Locked (t.go i p) := by
  intro j
  by_cases hj : j = i
  · rw [hj, go_place_self]
    exact iff_of_true ((h i).mpr hi) hp
  · rw [go_place_of_ne p hj]
    exact h j

theorem Locked.go_of_not_holds (h : Locked t) (hi : (t.place i).holds = false) {p : Place}
    (hp : p.holds = false) : Locked (t.go i p) := by
  intro j
  by_cases hj : j = i
  · rw [hj, go_place_self, hp]
    refine iff_of_false ?_ Bool.false_ne_true
    intro hholder
    have htrue := (h i).mp hholder
    rw [hi] at htrue
    cases htrue
  · rw [go_place_of_ne p hj]
    exact h j

theorem Locked.acquire (h : Locked t) (hfree : t.holder = none) {p : Place}
    (hp : p.holds = true) : Locked (go { t with holder := some i } i p) := by
  intro j
  by_cases hj : j = i
  · rw [hj, go_place_self]
    exact iff_of_true rfl hp
  · rw [go_place_of_ne p hj]
    have hother := h j
    rw [hfree] at hother
    refine iff_of_false ?_ (fun hholds ↦ ?_)
    · intro hsome
      exact hj (Option.some.inj hsome).symm
    · cases hother.mpr hholds

theorem Locked.release (h : Locked t) (hi : (t.place i).holds = true) {p : Place}
    (hp : p.holds = false) : Locked (go { t with holder := none } i p) := by
  intro j
  by_cases hj : j = i
  · rw [hj, go_place_self, hp]
    exact iff_of_false nofun Bool.false_ne_true
  · rw [go_place_of_ne p hj]
    refine iff_of_false nofun ?_
    intro hholds
    have hsame := ((h i).mpr hi).symm.trans ((h j).mpr hholds)
    exact hj (Option.some.inj hsame).symm

theorem Locked.step (h : Locked t) (hstep : t.step crc32 (i, a) = some t') : Locked t' := by
  cases moves_of_step hstep with
  | switched _ b => exact h
  | pushed op hi =>
      have hsame : Locked { t with ops := t.ops ++ [op], made := t.made ++ [op] } := h
      apply hsame.go_of_not_holds _ rfl
      rw [hi]
      rfl
  | refused j hi _ => exact h.go_of_not_holds (by rw [hi]; rfl) rfl
  | acquired _ hfree => exact h.acquire hfree rfl
  | popped op ops _ _ => exact h
  | emptied hi _ => exact h.go_of_holds (by rw [hi]; rfl) rfl
  | locked _ hfree => exact h.acquire hfree rfl
  | reported reports hi =>
      have hsame : Locked { t with reports := reports } := h
      apply hsame.go_of_holds _ rfl
      rw [hi]
      rfl
  | unlocked hi => exact h.release (by rw [hi]; rfl) rfl

/-! ## Who will apply what is in the queue -/

/-- An operation in the queue has a thread that will apply it or try the lock. -/
def Attended (t : Callers ι) : Prop :=
  t.ops ≠ [] → ∃ j, t.place j = .draining ∨ t.place j = .pushed

/-- The others stay where they are. -/
theorem Attended.go (h : Attended t) {p : Place}
    (hi : t.place i ≠ .draining ∧ t.place i ≠ .pushed) : Attended (t.go i p) := by
  intro hops
  obtain ⟨j, hj⟩ := h hops
  refine ⟨j, ?_⟩
  rw [go_place_of_ne]
  · exact hj
  · rintro rfl
    exact hj.elim hi.1 hi.2

theorem Attended.step (h : Attended t) (hok : InTime t (i, a))
    (hstep : t.step crc32 (i, a) = some t') : Attended t' := by
  cases moves_of_step hstep with
  | switched _ b => exact h
  | pushed op _ => exact fun _ ↦ ⟨i, .inr (go_place_self _)⟩
  | refused j hi hholder =>
      -- the holder has not had its failing pop
      intro _
      have hj : t.place j = .draining := hok j hholder
      refine ⟨j, .inl ?_⟩
      rw [go_place_of_ne]
      · exact hj
      · rintro rfl
        rw [hi] at hj
        cases hj
  | acquired _ _ => exact fun _ ↦ ⟨i, .inl (go_place_self _)⟩
  | popped op ops hi _ => exact fun _ ↦ ⟨i, .inl hi⟩
  | emptied _ hops => exact fun hne ↦ absurd hops hne
  | locked hi _ =>
      have hsame : Attended { t with holder := some i } := h
      exact hsame.go ⟨by rw [hi]; decide, by rw [hi]; decide⟩
  | reported reports hi =>
      have hsame : Attended { t with reports := reports } := h
      exact hsame.go ⟨by rw [hi]; decide, by rw [hi]; decide⟩
  | unlocked hi =>
      have hsame : Attended { t with holder := none } := h
      exact hsame.go ⟨by rw [hi]; decide, by rw [hi]; decide⟩

/-! ## Whole runs -/

/-- In every run, whatever the threads do, what is applied is what was pushed first. -/
theorem inOrder_of_reaches (h : Reaches (step crc32) (fun _ _ ↦ True) ({} : Callers ι) t) :
    InOrder crc32 t :=
  h.invariant ⟨rfl, rfl⟩ fun _ ⟨_, _⟩ _ hinv _ hstep ↦ hinv.step hstep

/-- No two threads are behind the lock, so that nobody comes between the popping of an
operation and its application. -/
theorem exclusive_of_reaches (h : Reaches (step crc32) (fun _ _ ↦ True) ({} : Callers ι) t)
    {j : ι} (hi : (t.place i).holds = true) (hj : (t.place j).holds = true) : i = j := by
  have hlocked : Locked t := by
    refine h.invariant ?_ fun _ ⟨_, _⟩ _ hinv _ hstep ↦ hinv.step hstep
    exact fun j ↦ iff_of_false nofun Bool.false_ne_true
  have hsame := ((hlocked i).mpr hi).symm.trans ((hlocked j).mpr hj)
  exact Option.some.inj hsame

theorem attended_of_reaches (h : Reaches (step crc32) InTime ({} : Callers ι) t) :
    Attended t := by
  refine h.invariant ?_ fun _ ⟨_, _⟩ _ hinv hok hstep ↦ hinv.step hok hstep
  exact fun hne ↦ absurd rfl hne

/-- In a run in which the lock is only refused by a thread that goes on popping: once
all calls have returned, every operation is applied, and the statistics are those of
all that was tracked. -/
theorem drained_of_reaches (crc32 : String → UInt32) (t : Callers ι)
    (h : Reaches (step crc32) InTime {} t) (hidle : ∀ i, t.place i = .idle) :
    t.ops = [] ∧ t.applied = t.made ∧
      ∃ tracker, t.tracker = some tracker ∧ Agrees crc32 tracker (live t.made) := by
  have hops : t.ops = [] := by
    by_contra hne
    obtain ⟨j, hj⟩ := attended_of_reaches h hne
    rw [hidle j] at hj
    rcases hj with hj | hj
    · cases hj
    · cases hj
  have hinOrder := inOrder_of_reaches (h.mono fun _ _ _ ↦ trivial)
  have hmade := hinOrder.made
  rw [hops, List.append_nil] at hmade
  obtain ⟨tracker, hrun, hagrees⟩ := agrees_live crc32 t.made
  refine ⟨hops, hmade, tracker, ?_, hagrees⟩
  rw [hinOrder.tracker, hmade, hrun]

/-- Whether a move leaves the lock to no thread whose loop is over. -/
def checkLock (t : Callers Bool) (a : Bool × Action) : Bool :=
  match a.2 with
  | .tryLock => t.holder.all fun j ↦ t.place j == .draining
  | _ => true

theorem inTime_of_check {t : Callers Bool} {a : Bool × Action} (hcheck : checkLock t a = true) :
    InTime t a := by
  obtain ⟨i, a⟩ := a
  cases a with
  | tryLock =>
      intro j hj
      simpa [checkLock, hj] using hcheck
  | _ => trivial

/-- A thread leaves its operation to another one that is still popping. -/
theorem drained_two : ∃ t : Callers Bool, t.made.length = 2 ∧ t.ops = [] ∧ t.applied = t.made := by
  have hrun : ∃ t : Callers Bool, Reaches (step fun _ ↦ 0) InTime {} t ∧
      (t.made.length == 2 && t.place true == .idle && t.place false == .idle) = true :=
    exists_reaches_checked [(true, .push (.alloc 16 8 "a")), (true, .tryLock),
        (false, .push (.dealloc 16)), (false, .tryLock), (true, .pop), (true, .pop), (true, .pop),
        (true, .unlock)]
      checkLock (fun _ _ ↦ inTime_of_check) (by decide)
  obtain ⟨t, hreach, hlast⟩ := hrun
  rw [Bool.and_eq_true, Bool.and_eq_true, beq_iff_eq, beq_iff_eq, beq_iff_eq] at hlast
  obtain ⟨hops, happlied, -⟩ := drained_of_reaches (fun _ ↦ 0) t hreach
    (Bool.forall_bool.mpr ⟨hlast.2, hlast.1.2⟩)
  exact ⟨t, hlast.1.1, hops, happlied⟩

/-- An operation is pushed, and the lock refused, between the failing pop of the
holder and its `unlock`. -/
theorem not_drained : ∃ t : Callers Bool,
    Reaches (step fun _ ↦ 0) (fun _ _ ↦ True) {} t ∧ (∀ i, t.place i = .idle) ∧
      t.ops = [.alloc 32 8 "b"] ∧ t.applied ≠ t.made := by
  have hrun : ∃ t : Callers Bool, Reaches (step fun _ ↦ 0) (fun _ _ ↦ True) {} t ∧
      (t.ops == [.alloc 32 8 "b"] && t.applied.length == 1 && t.made.length == 2 &&
        t.place true == .idle && t.place false == .idle) = true :=
    exists_reaches [(true, .push (.alloc 16 8 "a")), (true, .tryLock), (true, .pop), (true, .pop),
        (false, .push (.alloc 32 8 "b")), (false, .tryLock), (true, .unlock)]
      (fun _ _ _ ↦ trivial) (by decide)
  obtain ⟨t, hreach, hlast⟩ := hrun
  simp only [Bool.and_eq_true, beq_iff_eq] at hlast
  obtain ⟨⟨⟨⟨hops, happlied⟩, hmade⟩, htrue⟩, hfalse⟩ := hlast
  refine ⟨t, hreach, Bool.forall_bool.mpr ⟨hfalse, htrue⟩, hops, ?_⟩
  intro heq
  rw [heq, hmade] at happlied
  cases happlied

end Callers

end MemTracker

end WiseKernel.Core
