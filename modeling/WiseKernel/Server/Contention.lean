import WiseKernel.Lib.Threads
import WiseKernel.Server.ActorIdGenerator

/-!
# One id generator, several threads

`next` reads the clock and then takes the lock; a thread that has slept inside the
lock reads the clock again.  The stamp of a thread is compared with `last_ms_`, which
is the stamp of another one.
-/

namespace WiseKernel.Server

open WiseKernel.Lib

namespace ActorIdGenerator

/-- A generator, the last reading of the clock, and what the calls of `next` have done:
the milliseconds that went into ids, the ids and the exceptions. -/
structure Shared where
  gen : ActorIdGenerator
  clock : UInt64
  used : List UInt64
  ids : List UInt64
  thrown : List Error
  deriving DecidableEq, Repr

/-- Between the reading of the clock and the lock. -/
inductive Place
  | idle
  | stamped (now : UInt64)
  deriving DecidableEq, Repr

inductive Action
  /-- `next` is called, and reads the clock -/
  | read (now : UInt64)
  /-- the locked section, with what `wait_next_ms` reads if it is called -/
  | enter (later : UInt64)
  deriving DecidableEq, Repr

namespace Shared

def initial (domain : UInt16) : Shared := ⟨(setup {} domain).2, 0, [], [], []⟩

def throws (s : Shared) (e : Error) : Shared := { s with thrown := s.thrown ++ [e] }

/-- The step of a thread; `none` where it is elsewhere, or where the clock would go
back. -/
def block (s : Shared) : Place → Action → Option (Shared × Place)
  | .idle, .read now =>
      if s.gen.domain = 0 then some (s.throws .zeroDomain, .idle)
      else if s.clock ≤ now then some ({ s with clock := now }, .stamped now)
      else none
  | .stamped now, .enter later =>
      if s.gen.waits now = true ∧ later < s.clock then none
      else
        match s.gen.next now later with
        | .error e => some (s.throws e, .idle)
        | .ok (id, gen) =>
            some ({ s with
              gen := gen
              clock := if s.gen.waits now then later else s.clock
              used := s.used ++ [s.gen.idMs now later]
              ids := s.ids ++ [id] }, .idle)
  | _, _ => none

/-- The domain is set, and no thread that enters comes after one with a later time. -/
def InOrder (s : Shared) (p : Place) : Action → Prop
  | .read _ => s.gen.domain ≠ 0
  | .enter _ => ∀ now, p = .stamped now → ∀ r ∈ s.used, r ≤ now

/-- `last_ms_` is the greatest of the times used, and none of them is ahead of the
clock. -/
structure Ordered (s : Shared) : Prop where
  last : s.gen.lastMs = 0 ∨ s.gen.lastMs ∈ s.used
  greatest : ∀ r ∈ s.used, r ≤ s.gen.lastMs
  clock : ∀ r ∈ s.used, r ≤ s.clock
  thrown : s.thrown = []
  ids : s.ids.length = s.used.length

/-- What a thread relies on. -/
def Relies : Place → Shared → Prop
  | .idle, _ => True
  | .stamped now, s => now ≤ s.clock ∧ s.gen.domain ≠ 0

variable {s s' : Shared} {p p' : Place} {a : Action} {now later : UInt64}

theorem ordered_initial (domain : UInt16) : Ordered (initial domain) := by
  have hlast : (setup {} domain).2.lastMs = 0 := by
    unfold setup
    dsimp only
    split_ifs <;> rfl
  exact ⟨.inl hlast, nofun, nofun, rfl, rfl⟩

/-- The locked section of a thread throws exactly if its stamp is behind a time that
has been used. -/
theorem Ordered.lt_iff (h : Ordered s) : now < s.gen.lastMs ↔ ∃ r ∈ s.used, now < r := by
  constructor
  · intro hlt
    rcases h.last with hzero | hmem
    · rw [hzero] at hlt
      exact absurd hlt (UInt64.not_lt.mpr UInt64.zero_le)
    · exact ⟨_, hmem, hlt⟩
  · rintro ⟨r, hr, hlt⟩
    exact UInt64.lt_of_lt_of_le hlt (h.greatest r hr)

theorem enter_of_lt (hdomain : s.gen.domain ≠ 0) (hlt : now < s.gen.lastMs) :
    s.block (.stamped now) (.enter later) =
      some (s.throws (.timeInverted now s.gen.lastMs), .idle) := by
  have hwaits : s.gen.waits now = false := by
    have hne : s.gen.lastMs ≠ now := by
      rintro rfl
      exact UInt64.lt_irrefl _ hlt
    simp [waits, hne]
  simp only [block, hwaits, ActorIdGenerator.next, if_neg hdomain, if_pos hlt]
  simp

/-- What the locked section does in order. -/
theorem enter_cases (hdomain : s.gen.domain ≠ 0) (hnow : s.gen.lastMs ≤ now)
    (h : s.block (.stamped now) (.enter later) = some (s', p')) :
    p' = .idle ∧ (s.gen.waits now = true → s.clock ≤ later) ∧
      s'.gen.domain = s.gen.domain ∧ s'.gen.lastMs = s.gen.idMs now later ∧
      s'.clock = (if s.gen.waits now then later else s.clock) ∧
      s'.used = s.used ++ [s.gen.idMs now later] ∧ s'.thrown = s.thrown ∧
      ∃ id, s'.ids = s.ids ++ [id] := by
  obtain ⟨g, hnext, hgdomain, hglast, -, -⟩ := @next_eq_ok _ _ later hdomain hnow
  by_cases hback : s.gen.waits now = true ∧ later < s.clock
  · simp only [block, if_pos hback] at h
    cases h
  · simp only [block, hnext, if_neg hback] at h
    cases h
    refine ⟨rfl, fun hwaits ↦ ?_, hgdomain, hglast, rfl, rfl, rfl, _, rfl⟩
    by_contra hlt
    exact hback ⟨hwaits, UInt64.not_le.mp hlt⟩

theorem Ordered.enter (h : Ordered s) (hrelies : Relies (.stamped now) s)
    (hok : ∀ r ∈ s.used, r ≤ now)
    (hblock : s.block (.stamped now) (.enter later) = some (s', p')) :
    Ordered s' ∧ s.clock ≤ s'.clock ∧ s'.gen.domain = s.gen.domain ∧ p' = .idle := by
  obtain ⟨hclock, hdomain⟩ := hrelies
  have hnow : s.gen.lastMs ≤ now := by
    rw [← UInt64.not_lt, h.lt_iff]
    rintro ⟨r, hr, hlt⟩
    exact absurd (hok r hr) (UInt64.not_le.mpr hlt)
  obtain ⟨rfl, hwaits, hdomain', hlast, hclock', hused, hthrown, id, hids⟩ :=
    enter_cases hdomain hnow hblock
  have hforward : s.clock ≤ s'.clock := by
    rw [hclock']
    split_ifs with hw
    · exact hwaits hw
    · exact UInt64.le_refl _
  have htime : now ≤ s.gen.idMs now later ∧ s.gen.idMs now later ≤ s'.clock := by
    rw [idMs, hclock']
    split_ifs with hw
    · exact ⟨UInt64.le_trans hclock (hwaits hw), UInt64.le_refl _⟩
    · exact ⟨UInt64.le_refl _, hclock⟩
  refine ⟨⟨?_, fun r hr ↦ ?_, fun r hr ↦ ?_, ?_, ?_⟩, hforward, hdomain', rfl⟩
  · rw [hused, hlast]
    exact .inr (List.mem_append_right _ List.mem_cons_self)
  · rw [hused] at hr
    rw [hlast]
    rcases List.mem_append.mp hr with hold | hnew
    · exact UInt64.le_trans (hok r hold) htime.1
    · rw [List.mem_singleton.mp hnew]
      exact UInt64.le_refl _
  · rw [hused] at hr
    rcases List.mem_append.mp hr with hold | hnew
    · exact UInt64.le_trans (h.clock r hold) hforward
    · rw [List.mem_singleton.mp hnew]
      exact htime.2
  · rw [hthrown, h.thrown]
  · rw [hids, hused, List.length_append, List.length_append, h.ids]
    rfl

theorem Ordered.block (h : Ordered s) (hrelies : Relies p s) (hok : s.InOrder p a)
    (hblock : s.block p a = some (s', p')) :
    Ordered s' ∧ Relies p' s' ∧ ∀ q, Relies q s → Relies q s' := by
  have hothers (hclock : s.clock ≤ s'.clock) (hdomain : s'.gen.domain = s.gen.domain) :
      ∀ q, Relies q s → Relies q s' := by
    rintro (_ | stamp) hq
    · trivial
    · exact ⟨UInt64.le_trans hq.1 hclock, hdomain ▸ hq.2⟩
  cases p with
  | idle =>
      cases a with
      | read now =>
          simp only [Shared.block, if_neg hok] at hblock
          split_ifs at hblock with hclock
          cases hblock
          exact ⟨⟨h.last, h.greatest, fun r hr ↦ UInt64.le_trans (h.clock r hr) hclock, h.thrown,
            h.ids⟩, ⟨UInt64.le_refl _, hok⟩, hothers hclock rfl⟩
      | enter later => cases hblock
  | stamped now =>
      cases a with
      | read stamp => cases hblock
      | enter later =>
          obtain ⟨hordered, hclock, hdomain, rfl⟩ := h.enter hrelies (hok now rfl) hblock
          exact ⟨hordered, trivial, hothers hclock hdomain⟩

end Shared

variable {ι : Type} [DecidableEq ι]

/-- A generator that is set up, and no call under way. -/
def start (domain : UInt16) : Threads ι Shared Place := ⟨.initial domain, fun _ ↦ .idle⟩

theorem ordered_of_reaches {domain : UInt16} {t : Threads ι Shared Place}
    (h : Reaches (Threads.next Shared.block) (Threads.Each Shared.InOrder) (start domain) t) :
    t.shared.Ordered ∧ ∀ i, Shared.Relies (t.place i) t.shared :=
  Threads.reaches_invariant h (Shared.ordered_initial domain) (fun _ ↦ trivial)
    fun _ _ _ _ _ hs hrelies hok hblock ↦ hs.block hrelies hok hblock

/-- In a run in which the domain is set and no thread enters the locked section behind
a later time: no call throws, and each that has entered has got an id.  A thread that
enters next gets an id exactly if no time that has been used is later than its stamp,
and throws exactly if one is. -/
theorem next_in_order (domain : UInt16) (t : Threads ι Shared Place)
    (h : Reaches (Threads.next Shared.block) (Threads.Each Shared.InOrder) (start domain) t) :
    t.shared.thrown = [] ∧ t.shared.ids.length = t.shared.used.length ∧
    ∀ i now, t.place i = .stamped now → ∀ later, t.shared.clock ≤ later →
      ∃ t', t.next Shared.block (i, .enter later) = some t' ∧
        ((∃ id, t'.shared.ids = t.shared.ids ++ [id]) ↔ ∀ r ∈ t.shared.used, r ≤ now) ∧
        (t'.shared.thrown = [] ↔ ∀ r ∈ t.shared.used, r ≤ now) := by
  obtain ⟨hordered, hrelies⟩ := ordered_of_reaches h
  refine ⟨hordered.thrown, hordered.ids, fun i now hplace later hlater ↦ ?_⟩
  obtain ⟨hclock, hdomain⟩ : now ≤ t.shared.clock ∧ t.shared.gen.domain ≠ 0 := by
    have hi := hrelies i
    rwa [hplace] at hi
  have hstep : t.next Shared.block (i, .enter later) =
      (t.shared.block (.stamped now) (.enter later)).map
        fun r ↦ ⟨r.1, Function.update t.place i r.2⟩ := by
    rw [Threads.next, hplace]
  by_cases hlt : now < t.shared.gen.lastMs
  · rw [hstep, Shared.enter_of_lt hdomain hlt]
    obtain ⟨r, hr, hbehind⟩ := hordered.lt_iff.mp hlt
    have hnot : ¬ ∀ r ∈ t.shared.used, r ≤ now :=
      fun hall ↦ absurd (hall r hr) (UInt64.not_le.mpr hbehind)
    refine ⟨_, rfl, iff_of_false ?_ hnot, iff_of_false ?_ hnot⟩
    · rintro ⟨id, hids⟩
      have hlength := congrArg List.length hids
      simp [Shared.throws] at hlength
    · simp [Shared.throws]
  · have hnow := UInt64.not_lt.mp hlt
    have hall : ∀ r ∈ t.shared.used, r ≤ now := by
      intro r hr
      exact UInt64.le_trans (hordered.greatest r hr) hnow
    obtain ⟨s, p, hblock⟩ : ∃ s p,
        t.shared.block (.stamped now) (.enter later) = some (s, p) := by
      obtain ⟨g, hnext, -⟩ := @next_eq_ok _ _ later hdomain hnow
      have hback : ¬ (t.shared.gen.waits now = true ∧ later < t.shared.clock) :=
        fun hback ↦ absurd hlater (UInt64.not_le.mpr hback.2)
      simp only [Shared.block, hnext, if_neg hback]
      exact ⟨_, _, rfl⟩
    obtain ⟨-, -, -, -, -, -, hthrown, id, hids⟩ := Shared.enter_cases hdomain hnow hblock
    rw [hstep, hblock]
    refine ⟨_, rfl, iff_of_true ⟨id, hids⟩ hall, iff_of_true ?_ hall⟩
    exact hthrown.trans hordered.thrown

/-- Two threads that enter in the order of their stamps. -/
theorem next_in_order_two : ∃ t : Threads Bool Shared Place,
    t.shared.used = [5, 6] ∧ t.shared.thrown = [] := by
  have hrun : ∃ t : Threads Bool Shared Place,
      Reaches (Threads.next Shared.block) (Threads.Each Shared.InOrder) (start 1) t ∧
        (t.shared.used == [5, 6]) = true :=
    exists_reaches_checked [(true, .read 5), (false, .read 6), (true, .enter 6), (false, .enter 6)]
      (fun t a ↦ match t.place a.1, a.2 with
        | _, .read _ => t.shared.gen.domain != 0
        | .stamped now, .enter _ => t.shared.used.all (· ≤ now)
        | .idle, .enter _ => false)
      (by
        rintro t ⟨i, a⟩ hcheck
        cases a with
        | read now =>
            change t.shared.gen.domain ≠ 0
            cases hp : t.place i <;> simpa [hp] using hcheck
        | enter later =>
            intro now hp r hr
            have hall : t.shared.used.all (· ≤ now) = true := by
              simpa [show t.place i = _ from hp] using hcheck
            exact of_decide_eq_true (List.all_eq_true.mp hall r hr))
      (by decide)
  obtain ⟨t, hreach, hlast⟩ := hrun
  exact ⟨t, beq_iff_eq.mp hlast, (next_in_order 1 t hreach).1⟩

/-- A thread reads 5, another one reads 6 and enters first. -/
theorem not_next_in_order : ¬ ∀ (domain : UInt16), domain ≠ 0 → ∀ t : Threads Bool Shared Place,
    Reaches (Threads.next Shared.block) (fun _ _ ↦ True) (start domain) t →
      t.shared.thrown = [] := by
  intro hall
  have hrun : ∃ t : Threads Bool Shared Place,
      Reaches (Threads.next Shared.block) (fun _ _ ↦ True) (start 1) t ∧
        (t.shared.thrown == [.timeInverted 5 6]) = true :=
    exists_reaches [(true, .read 5), (false, .read 6), (false, .enter 6), (true, .enter 6)]
      (fun _ _ _ ↦ trivial) (by decide)
  obtain ⟨t, hreach, hlast⟩ := hrun
  have hnone := hall 1 (by decide) t hreach
  rw [beq_iff_eq.mp hlast] at hnone
  cases hnone

end ActorIdGenerator

end WiseKernel.Server
