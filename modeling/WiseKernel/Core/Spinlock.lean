import WiseKernel.Lib.Threads

/-!
# The spinlock

`spinlock::lock` reads the state until it is unlocked and then exchanges it; whoever finds it
locked again waits for a random number of rounds and begins anew.  Each access to an atomic is
one step of a thread, and a thread inside may do any number of things before it unlocks: they
are logged, so that what a locked section does can be compared with what happens in one step.
-/

namespace WiseKernel.Core

open WiseKernel.Lib

inductive SpinlockStatus where
  | locked
  | unlocked
  deriving DecidableEq, Repr

/-- The spinlock, and what has been done under it: everything in the order of time, and section
by section. -/
structure Spinlock (α : Type) where
  state : SpinlockStatus := .unlocked
  retries : UInt64 := 0
  log : List α := []
  sections : List (List α) := []

namespace Spinlock

/-- Where a thread is: at the head of the loop, in the wait for the state, before the exchange,
in the rounds after a collision, before the store of the estimate, or inside.  From the exchange
on it knows the number of its section. -/
inductive Place where
  | outside
  | start (collisions : ℕ)
  | spin (collisions : ℕ) (prev retries : UInt64)
  | exchange (collisions : ℕ) (prev retries : UInt64)
  | relax (collisions z : ℕ)
  | store (number : ℕ) (prev retries : UInt64)
  | inside (number : ℕ)
  deriving DecidableEq

/-- `run` takes the next step of `lock`; its number is what the random generator gives. -/
inductive Action (α : Type) where
  | lock
  | tryLock
  | run (z : ℕ)
  | touch (a : α)
  | unlock

def contentionWindowThreshold : ℕ := 16

def spinBeforeSleep0 : UInt64 := 256

def spinBeforeYield : UInt64 := 128

def maxRelaxRetries (prev : UInt64) : UInt64 := min spinBeforeYield (2 * prev + 10)

def maxSleepRetries (prev : UInt64) : UInt64 := min spinBeforeSleep0 (2 * prev + 10)

/-- One round of the wait: it relaxes, sleeps for no time, or yields. -/
def wait (prev retries : UInt64) : UInt64 :=
  if maxRelaxRetries prev > retries then retries + 1
  else if maxSleepRetries prev > retries then retries + 1
  else retries

/-- What is stored as the next estimate. -/
def estimate (prev retries : UInt64) : UInt64 := prev + (retries - prev) / 8

variable {α : Type}

/-- A section begins. -/
def enter (s : Spinlock α) : Spinlock α :=
  { s with state := .locked, sections := s.sections ++ [[]] }

/-- One more thing in a section. -/
def touch (s : Spinlock α) (number : ℕ) (a : α) : Spinlock α :=
  { s with
    log := s.log ++ [a]
    sections := s.sections.set number (s.sections.getD number [] ++ [a]) }

def block (s : Spinlock α) : Place → Action α → Option (Spinlock α × Place)
  | .outside, .lock => some (s, .start 0)
  | .outside, .tryLock =>
      if s.state = .unlocked then some (s.enter, .inside s.sections.length)
      else some ({ s with state := .locked }, .outside)
  | .start collisions, .run _ => some (s, .spin collisions s.retries 0)
  | .spin collisions prev retries, .run _ =>
      if s.state = .locked then some (s, .spin collisions prev (wait prev retries))
      else some (s, .exchange collisions prev retries)
  | .exchange collisions prev retries, .run z =>
      if s.state = .locked then
        if z ≤ 2 ^ min collisions contentionWindowThreshold then
          some ({ s with state := .locked }, .relax (collisions + 1) z)
        else none
      else some (s.enter, .store s.sections.length prev retries)
  | .relax collisions z, .run _ =>
      if z = 0 then some (s, .start collisions) else some (s, .relax collisions (z - 1))
  | .store number prev retries, .run _ =>
      some ({ s with retries := estimate prev retries }, .inside number)
  | .inside number, .touch a => some (s.touch number a, .inside number)
  | .inside _, .unlock => some ({ s with state := .unlocked }, .outside)
  | _, _ => none

/-- The section of a thread that has the lock. -/
def Place.number? : Place → Option ℕ
  | .store number _ _ | .inside number => some number
  | _ => none

/-- The lock is taken and not yet given back. -/
def Place.Holds (p : Place) : Prop := p.number?.isSome

/-- The thread is in a call of `lock`. -/
def Place.Waits : Place → Prop
  | .outside | .inside _ => False
  | _ => True

abbrev Run (ι α : Type) := Threads ι (Spinlock α) Place

def initial (ι α : Type) : Run ι α := ⟨⟨.unlocked, 0, [], []⟩, fun _ ↦ .outside⟩

/-- Runs of any number of threads, in any order. -/
abbrev Runs {ι : Type} [DecidableEq ι] : Run ι α → Run ι α → Prop :=
  Reaches (Threads.next block) (Threads.Each fun _ _ _ ↦ True)

/-! ## Sections -/

/-- What is logged is what the sections hold, one section behind the other. -/
def Serial (s : Spinlock α) : Prop := s.log = s.sections.flatten

def Free (s : Spinlock α) : Prop := s.state = .unlocked ∧ s.Serial

/-- The last section is that of the thread. -/
def Busy (s : Spinlock α) (p : Place) : Prop :=
  s.state = .locked ∧ s.Serial ∧ ∃ n ∈ p.number?, s.sections.length = n + 1

variable {ι : Type} [DecidableEq ι] {s s' : Spinlock α} {p p' : Place} {a : Action α}
  {w w' : Run ι α} {i j : ι}

theorem Serial.enter (h : s.Serial) : s.enter.Serial := by
  rw [Serial, Spinlock.enter, List.flatten_append, ← h]
  simp

theorem Serial.touch (h : s.Serial) {n : ℕ} (hlast : s.sections.length = n + 1) (x : α) :
    (s.touch n x).Serial := by
  obtain hnil | ⟨before, last, hsections⟩ := List.eq_nil_or_concat s.sections
  · rw [hnil] at hlast
    cases hlast
  · obtain rfl : before.length = n := by
      rw [hsections, List.concat_eq_append, List.length_append] at hlast
      exact Nat.succ_inj.mp hlast
    rw [Serial, hsections] at h
    simp [Serial, Spinlock.touch, hsections, h]

theorem Busy.not_unlocked (h : s.Busy p) : s.state ≠ .unlocked := by
  rw [h.1]
  exact SpinlockStatus.noConfusion

theorem locked_of_not_unlocked (h : s.state ≠ .unlocked) : s.state = .locked := by
  cases hs : s.state
  · rfl
  · exact absurd hs h

theorem unlocked_of_not_locked (h : s.state ≠ .locked) : s.state = .unlocked := by
  cases hs : s.state
  · exact absurd hs h
  · rfl

/-- What a thread without the lock can do. -/
theorem block_of_not_holds (hp : ¬ p.Holds) (h : s.block p a = some (s', p')) :
    s.state = .unlocked ∧ s' = s.enter ∧ p'.number? = some s.sections.length ∨
      ¬ p'.Holds ∧ (s' = s ∨ s.state = .locked ∧ s' = { s with state := .locked }) := by
  cases p with
  | store n prev retries => exact absurd rfl hp
  | inside n => exact absurd rfl hp
  | outside =>
      cases a with
      | lock =>
          cases h
          exact .inr ⟨hp, .inl rfl⟩
      | tryLock =>
          simp only [block] at h
          split_ifs at h with hstate <;> cases h
          · exact .inl ⟨hstate, rfl, rfl⟩
          · exact .inr ⟨hp, .inr ⟨locked_of_not_unlocked hstate, rfl⟩⟩
      | _ => cases h
  | start collisions =>
      cases a with
      | run z =>
          cases h
          exact .inr ⟨hp, .inl rfl⟩
      | _ => cases h
  | spin collisions prev retries =>
      cases a with
      | run z =>
          simp only [block] at h
          split_ifs at h <;> cases h <;> exact .inr ⟨hp, .inl rfl⟩
      | _ => cases h
  | exchange collisions prev retries =>
      cases a with
      | run z =>
          simp only [block] at h
          split_ifs at h with hstate hz <;> cases h
          · exact .inr ⟨hp, .inr ⟨hstate, rfl⟩⟩
          · exact .inl ⟨unlocked_of_not_locked hstate, rfl, rfl⟩
      | _ => cases h
  | relax collisions z =>
      cases a with
      | run _ =>
          simp only [block] at h
          split_ifs at h <;> cases h <;> exact .inr ⟨hp, .inl rfl⟩
      | _ => cases h

/-- What the thread with the lock can do. -/
theorem block_of_holds {n : ℕ} (hp : p.number? = some n) (h : s.block p a = some (s', p')) :
    p'.number? = some n ∧
        ((∃ retries, s' = { s with retries := retries }) ∨ ∃ x, s' = s.touch n x) ∨
      ¬ p'.Holds ∧ s' = { s with state := .unlocked } := by
  cases p with
  | store number prev retries =>
      cases a with
      | run _ =>
          cases h
          exact .inl ⟨hp, .inl ⟨_, rfl⟩⟩
      | _ => cases h
  | inside number =>
      cases hp
      cases a with
      | touch x =>
          cases h
          exact .inl ⟨rfl, .inr ⟨x, rfl⟩⟩
      | unlock =>
          cases h
          exact .inr ⟨Bool.false_ne_true, rfl⟩
      | _ => cases h
  | _ => cases hp

omit [DecidableEq ι] in
theorem exclusive_initial :
    Threads.Exclusive Place.Holds Free Busy (initial ι α) :=
  .inl ⟨⟨rfl, rfl⟩, fun _ ↦ Bool.false_ne_true⟩

theorem exclusive_of_runs (h : Runs (initial ι α) w) :
    Threads.Exclusive Place.Holds Free Busy w := by
  refine Threads.reaches_exclusive h exclusive_initial ?_ ?_
  · intro s p a s' p' hp _ hblock
    rcases block_of_not_holds hp hblock with ⟨hstate, rfl, hnumber⟩ | ⟨hp', hs⟩
    · have hholds : p'.Holds := by rw [Place.Holds, hnumber]; rfl
      refine ⟨fun _ ↦ ⟨fun _ hbusy ↦ hbusy.not_unlocked hstate, fun hfree ↦ ?_⟩,
        fun hnot ↦ absurd hholds hnot⟩
      refine ⟨rfl, hfree.2.enter, s.sections.length, hnumber, ?_⟩
      simp [Spinlock.enter]
    · refine ⟨fun hholds ↦ absurd hholds hp', fun _ ↦ ?_⟩
      rcases hs with rfl | ⟨hlocked, rfl⟩
      · exact ⟨id, fun _ _ ↦ id⟩
      · refine ⟨fun hfree ↦ ?_, fun _ _ hbusy ↦ ⟨rfl, hbusy.2⟩⟩
        rw [Free, hlocked] at hfree
        cases hfree.1
  · rintro s p a s' p' - ⟨hlocked, hserial, n, hn, hlast⟩ - hblock
    rcases block_of_holds hn hblock with ⟨hnumber, ⟨_, rfl⟩ | ⟨x, rfl⟩⟩ | ⟨hp', rfl⟩
    · have hholds : p'.Holds := by rw [Place.Holds, hnumber]; rfl
      exact ⟨fun _ ↦ ⟨hlocked, hserial, n, hnumber, hlast⟩, fun hnot ↦ absurd hholds hnot⟩
    · have hholds : p'.Holds := by rw [Place.Holds, hnumber]; rfl
      refine ⟨fun _ ↦ ⟨hlocked, hserial.touch hlast x, n, hnumber, ?_⟩,
        fun hnot ↦ absurd hholds hnot⟩
      simp [Spinlock.touch, hlast]
    · exact ⟨fun hholds ↦ absurd hholds hp', fun _ ↦ ⟨rfl, hserial⟩⟩

/-- Two threads meet at the exchange; the one that loses waits and comes in later. -/
def twoThreads : List (Bool × Action ℕ) :=
  [(false, .lock), (true, .lock), (false, .run 0), (true, .run 0), (false, .run 0),
    (true, .run 0), (false, .run 0), (true, .run 1), (false, .run 0), (false, .touch 1),
    (true, .run 0), (true, .run 0), (true, .run 0)] ++
    List.replicate 8 (true, .run 0) ++
      [(false, .touch 2), (false, .unlock), (true, .run 0), (true, .run 0), (true, .run 0),
        (true, .touch 3), (true, .unlock), (false, .lock), (false, .run 0), (false, .run 0),
        (false, .run 0)]

theorem exists_twoThreads (n : ℕ) (p : Run Bool ℕ → Bool)
    (h : ((twoThreads.take n).foldlM (Threads.next block) (initial Bool ℕ)).any p = true) :
    ∃ w, Runs (initial Bool ℕ) w ∧ p w = true :=
  exists_reaches (twoThreads.take n) (fun _ _ _ ↦ trivial) h

/-- At most one thread has the lock, and the state is locked exactly while one has it. -/
theorem mutual_exclusion (h : Runs (initial ι α) w) :
    (∀ i j, (w.place i).Holds → (w.place j).Holds → i = j) ∧
      (w.shared.state = .locked ↔ ∃ i, (w.place i).Holds) := by
  have hexclusive := exclusive_of_runs h
  refine ⟨fun i j hi hj ↦ hexclusive.eq hi hj, ?_⟩
  rcases hexclusive with ⟨⟨hunlocked, -⟩, hnone⟩ | ⟨i, hi, ⟨hlocked, -⟩, -⟩
  · rw [hunlocked]
    refine iff_of_false SpinlockStatus.noConfusion ?_
    rintro ⟨i, hi⟩
    exact hnone i hi
  · exact iff_of_true hlocked ⟨i, hi⟩

theorem mutual_exclusion_collision : ∃ w : Run Bool ℕ, Runs (initial Bool ℕ) w ∧
    w.place false = .store 0 0 0 ∧ w.place true = .relax 1 1 ∧
      (w.shared.state = .locked ↔ ∃ i, (w.place i).Holds) := by
  obtain ⟨w, hruns, hw⟩ := exists_twoThreads 8
    (fun w ↦ w.place false = .store 0 0 0 ∧ w.place true = .relax 1 1) (by decide)
  obtain ⟨hfalse, htrue⟩ := of_decide_eq_true hw
  exact ⟨w, hruns, hfalse, htrue, (mutual_exclusion hruns).2⟩

/-- What threads do under the lock is done section by section: what was done in the order of time
is what the sections hold, one behind the other, in the order in which the lock was taken. -/
theorem log_eq_flatten (h : Runs (initial ι α) w) : w.shared.log = w.shared.sections.flatten := by
  rcases exclusive_of_runs h with ⟨⟨-, hserial⟩, -⟩ | ⟨_, -, ⟨-, hserial, -⟩, -⟩
  · exact hserial
  · exact hserial

theorem log_eq_flatten_two : ∃ w : Run Bool ℕ, Runs (initial Bool ℕ) w ∧
    w.shared.sections = [[1, 2], [3]] ∧ w.shared.log = w.shared.sections.flatten := by
  obtain ⟨w, hruns, hw⟩ := exists_twoThreads 27
    (fun w ↦ w.shared.sections = [[1, 2], [3]]) (by decide)
  exact ⟨w, hruns, of_decide_eq_true hw, log_eq_flatten hruns⟩

/-! ## Progress -/

theorem runs_of_block {w : Run ι α} (h : w.shared.block (w.place i) a = some (s', p')) :
    Runs w ⟨s', Function.update w.place i p'⟩ := by
  refine @Reaches.head _ _ _ _ _ _ (i, a) _ trivial ?_ .refl
  rw [Threads.next, h]
  rfl

/-- A thread can come so far that it is inside, and the others stay where they are. -/
def Enters (w : Run ι α) (i : ι) : Prop :=
  ∃ w' n, Runs w w' ∧ w'.place i = .inside n

theorem Enters.of_runs (h : Runs w w') (henters : Enters w' i) : Enters w i := by
  obtain ⟨w'', n, hruns, hinside⟩ := henters
  exact ⟨w'', n, h.trans hruns, hinside⟩

theorem enters_of_store {n : ℕ} {prev retries : UInt64} (h : w.place i = .store n prev retries) :
    Enters w i := by
  have hblock : w.shared.block (w.place i) (.run 0) =
      some ({ w.shared with retries := estimate prev retries }, .inside n) := by
    rw [h]
    rfl
  exact ⟨_, n, runs_of_block hblock, Function.update_self _ _ _⟩

theorem enters_of_exchange {collisions : ℕ} {prev retries : UInt64}
    (hfree : w.shared.state = .unlocked) (h : w.place i = .exchange collisions prev retries) :
    Enters w i := by
  have hblock : w.shared.block (w.place i) (.run 0) =
      some (w.shared.enter, .store w.shared.sections.length prev retries) := by
    rw [h]
    simp [block, hfree]
  exact .of_runs (runs_of_block hblock) (enters_of_store (Function.update_self _ _ _))

theorem enters_of_spin {collisions : ℕ} {prev retries : UInt64}
    (hfree : w.shared.state = .unlocked) (h : w.place i = .spin collisions prev retries) :
    Enters w i := by
  have hblock : w.shared.block (w.place i) (.run 0) =
      some (w.shared, .exchange collisions prev retries) := by
    rw [h]
    simp [block, hfree]
  exact .of_runs (runs_of_block hblock) (enters_of_exchange hfree (Function.update_self _ _ _))

theorem enters_of_start {collisions : ℕ} (hfree : w.shared.state = .unlocked)
    (h : w.place i = .start collisions) : Enters w i := by
  have hblock : w.shared.block (w.place i) (.run 0) =
      some (w.shared, .spin collisions w.shared.retries 0) := by
    rw [h]
    rfl
  exact .of_runs (runs_of_block hblock) (enters_of_spin hfree (Function.update_self _ _ _))

theorem enters_of_relax {collisions z : ℕ} (hfree : w.shared.state = .unlocked)
    (h : w.place i = .relax collisions z) : Enters w i := by
  induction z generalizing w with
  | zero =>
      have hblock : w.shared.block (w.place i) (.run 0) = some (w.shared, .start collisions) := by
        rw [h]
        rfl
      exact .of_runs (runs_of_block hblock) (enters_of_start hfree (Function.update_self _ _ _))
  | succ z ih =>
      have hblock : w.shared.block (w.place i) (.run 0) =
          some (w.shared, .relax collisions z) := by
        rw [h]
        rfl
      refine .of_runs (runs_of_block hblock) (ih ?_ ?_)
      · exact hfree
      · exact Function.update_self _ _ _

theorem enters_of_unlocked (hfree : w.shared.state = .unlocked) (h : (w.place i).Waits) :
    Enters w i := by
  cases hp : w.place i with
  | outside | inside => exact (hp ▸ h).elim
  | start => exact enters_of_start hfree hp
  | spin => exact enters_of_spin hfree hp
  | exchange => exact enters_of_exchange hfree hp
  | relax => exact enters_of_relax hfree hp
  | store => exact enters_of_store hp

theorem enters_of_inside {n : ℕ} (hj : w.place j = .inside n) (h : (w.place i).Waits) :
    Enters w i := by
  have hne : i ≠ j := by
    rintro rfl
    rw [hj] at h
    exact h
  have hblock : w.shared.block (w.place j) .unlock =
      some ({ w.shared with state := .unlocked }, .outside) := by
    rw [hj]
    rfl
  refine .of_runs (runs_of_block hblock) (enters_of_unlocked rfl ?_)
  change (Function.update w.place j .outside i).Waits
  rwa [Function.update_of_ne hne]

/-- Whatever has happened, every thread in a call of `lock` can still come inside. -/
theorem exists_inside (h : Runs (initial ι α) w) (hwaits : (w.place i).Waits) :
    ∃ w' n, Runs w w' ∧ w'.place i = .inside n := by
  rcases exclusive_of_runs h with ⟨⟨hunlocked, -⟩, -⟩ | ⟨j, hj, -⟩
  · exact enters_of_unlocked hunlocked hwaits
  · cases hp : w.place j with
    | inside n => exact enters_of_inside hp hwaits
    | store n prev retries =>
        by_cases hij : i = j
        · subst hij
          exact enters_of_store hp
        · have hblock : w.shared.block (w.place j) (.run 0) =
              some ({ w.shared with retries := estimate prev retries }, .inside n) := by
            rw [hp]
            rfl
          have hstill : (Function.update w.place j (.inside n) i).Waits := by
            rwa [Function.update_of_ne hij]
          exact Enters.of_runs (runs_of_block hblock)
            (enters_of_inside (Function.update_self _ _ _) hstill)
    | _ => simp [Place.Holds, Place.number?, hp] at hj

theorem exists_inside_after_collision : ∃ w w' : Run Bool ℕ, ∃ n, Runs (initial Bool ℕ) w ∧
    w.place true = .relax 1 1 ∧ Runs w w' ∧ w'.place true = .inside n := by
  obtain ⟨w, hruns, hw⟩ := exists_twoThreads 8 (fun w ↦ w.place true = .relax 1 1) (by decide)
  have hrelax := of_decide_eq_true hw
  obtain ⟨w', n, hlater, hinside⟩ := exists_inside hruns
    (show (w.place true).Waits by rw [hrelax]; trivial)
  exact ⟨w, w', n, hruns, hrelax, hlater, hinside⟩

/-! ## The estimate -/

/-- The rounds of the wait are counted up to the bound. -/
def Place.Bounded : Place → Prop
  | .spin _ prev retries | .exchange _ prev retries | .store _ prev retries =>
      retries ≤ maxSleepRetries prev
  | _ => True

theorem toNat_maxRelaxRetries (prev : UInt64) :
    (maxRelaxRetries prev).toNat = min 128 (2 * prev + 10).toNat := by
  change (if spinBeforeYield ≤ 2 * prev + 10 then spinBeforeYield else 2 * prev + 10).toNat = _
  rw [apply_ite UInt64.toNat, min_def]
  rfl

theorem toNat_maxSleepRetries (prev : UInt64) :
    (maxSleepRetries prev).toNat = min 256 (2 * prev + 10).toNat := by
  change (if spinBeforeSleep0 ≤ 2 * prev + 10 then spinBeforeSleep0 else 2 * prev + 10).toNat = _
  rw [apply_ite UInt64.toNat, min_def]
  rfl

theorem wait_le {prev retries : UInt64} (h : retries ≤ maxSleepRetries prev) :
    wait prev retries ≤ maxSleepRetries prev := by
  have hsucc : ∀ n : ℕ, retries.toNat < min n (2 * prev + 10).toNat → n ≤ 256 →
      retries + 1 ≤ maxSleepRetries prev := by
    intro n hlt hn
    rw [UInt64.le_iff_toNat_le, toNat_maxSleepRetries, UInt64.toNat_add]
    have hone : (1 : UInt64).toNat = 1 := rfl
    omega
  unfold wait
  split_ifs with hrelax hsleep
  · rw [gt_iff_lt, UInt64.lt_iff_toNat_lt, toNat_maxRelaxRetries] at hrelax
    exact hsucc 128 hrelax (by decide)
  · rw [gt_iff_lt, UInt64.lt_iff_toNat_lt, toNat_maxSleepRetries] at hsleep
    exact hsucc 256 hsleep le_rfl
  · exact h

theorem Place.Bounded.block (hp : p.Bounded) (h : s.block p a = some (s', p')) :
    p'.Bounded := by
  have hzero : (0 : UInt64) ≤ maxSleepRetries s.retries := UInt64.zero_le
  cases p with
  | spin collisions prev retries =>
      cases a with
      | run z =>
          simp only [Spinlock.block] at h
          split_ifs at h <;> cases h
          · exact wait_le hp
          · exact hp
      | _ => cases h
  | exchange collisions prev retries =>
      cases a with
      | run z =>
          simp only [Spinlock.block] at h
          split_ifs at h <;> cases h
          · trivial
          · exact hp
      | _ => cases h
  | start collisions =>
      cases a with
      | run z =>
          cases h
          exact hzero
      | _ => cases h
  | outside =>
      cases a with
      | tryLock =>
          simp only [Spinlock.block] at h
          split_ifs at h <;> cases h <;> trivial
      | lock =>
          cases h
          trivial
      | _ => cases h
  | relax collisions z =>
      cases a with
      | run _ =>
          simp only [Spinlock.block] at h
          split_ifs at h <;> cases h <;> trivial
      | _ => cases h
  | store number prev retries =>
      cases a with
      | run _ =>
          cases h
          trivial
      | _ => cases h
  | inside number => cases a <;> cases h <;> trivial

theorem bounded_of_runs (h : Runs (initial ι α) w) : (w.place i).Bounded := by
  refine (@Threads.reaches_invariant ι _ _ _ _ block (fun _ _ _ ↦ True) _ _ (fun _ ↦ True)
    (fun p _ ↦ p.Bounded) h trivial (fun _ ↦ trivial) ?_).2 i
  intro s p a s' p' _ hp _ hblock
  exact ⟨trivial, hp.block hblock, fun _ ↦ id⟩

/-- A store of the estimate never lowers what the thread has loaded, as long as that is not at
the end of the range; a wait shorter than it raises it by 2^60. -/
theorem estimate_grows (h : Runs (initial ι α) w) {n : ℕ} {prev retries : UInt64}
    (hplace : w.place i = .store n prev retries) (hprev : prev.toNat + 36 < 2 ^ 64) :
    prev ≤ estimate prev retries ∧
      (retries < prev → prev.toNat ≤ 2 ^ 63 →
        prev.toNat + 2 ^ 60 ≤ (estimate prev retries).toNat) := by
  have hbounded : (Place.store n prev retries).Bounded := hplace ▸ bounded_of_runs h
  have hretries : retries.toNat ≤ 256 := by
    have hle := UInt64.le_iff_toNat_le.mp hbounded
    rw [toNat_maxSleepRetries] at hle
    omega
  have hnew : (estimate prev retries).toNat =
      (prev.toNat + (2 ^ 64 - prev.toNat + retries.toNat) % 2 ^ 64 / 8) % 2 ^ 64 := by
    rw [estimate, UInt64.toNat_add, UInt64.toNat_div, UInt64.toNat_sub]
    rfl
  rw [UInt64.le_iff_toNat_le, UInt64.lt_iff_toNat_lt, hnew]
  have hrange := prev.toNat_lt
  by_cases hlt : retries.toNat < prev.toNat
  · have hback : 2 ^ 64 - prev.toNat + retries.toNat < 2 ^ 64 := by omega
    have hinside : prev.toNat + (2 ^ 64 - prev.toNat + retries.toNat) / 8 < 2 ^ 64 := by omega
    rw [Nat.mod_eq_of_lt hback, Nat.mod_eq_of_lt hinside]
    exact ⟨by omega, fun _ hsmall ↦ by omega⟩
  · have hahead : (2 ^ 64 - prev.toNat + retries.toNat) % 2 ^ 64 = retries.toNat - prev.toNat := by
      rw [show 2 ^ 64 - prev.toNat + retries.toNat = retries.toNat - prev.toNat + 2 ^ 64 by omega,
        Nat.add_mod_right, Nat.mod_eq_of_lt (by omega)]
    rw [hahead, Nat.mod_eq_of_lt (by omega)]
    exact ⟨by omega, fun hnot ↦ absurd hnot hlt⟩

set_option maxRecDepth 4000 in
/-- After one wait of eight rounds a thread that need not wait stores 2^61. -/
theorem estimate_grows_idle : ∃ w : Run Bool ℕ, Runs (initial Bool ℕ) w ∧
    w.place false = .store 2 1 0 ∧ estimate 1 0 = 0x2000000000000000 ∧
      (1 : UInt64).toNat + 2 ^ 60 ≤ (estimate 1 0).toNat := by
  obtain ⟨w, hruns, hw⟩ := exists_twoThreads 32 (fun w ↦ w.place false = .store 2 1 0) (by decide)
  have hstore := of_decide_eq_true hw
  exact ⟨w, hruns, hstore, by decide,
    (estimate_grows hruns hstore (by decide)).2 (by decide) (by decide)⟩

end Spinlock

end WiseKernel.Core
