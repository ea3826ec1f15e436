import Mathlib.Data.List.Nodup
import Mathlib.Tactic.Common

/-!
# The id pool

`sequence<Seq>` hands out numbers from a queue, keeps the queue filled from a
counter, and takes numbers back.  The counter never passes `end_`, so the
numbers do not wrap.
-/

namespace WiseKernel.Core

/-- `sequence`; `low` is `begin_` and `high` is `end_`. -/
structure Sequence where
  low : ℕ
  high : ℕ
  reserve : ℕ
  current : ℕ
  seqs : List ℕ
  deriving DecidableEq, Repr

namespace Sequence

inductive Error
  /-- `"no sequence to use. begin:{}, end:{}, current:{}"` -/
  | noSequence (low high current : ℕ)
  deriving DecidableEq, Repr

/-- `acquire`: the loop that moves numbers from the counter to the queue. -/
def acquire (q : Sequence) : ℕ → Sequence
  | 0 => q
  | n + 1 =>
      if q.current < q.high then
        acquire { q with seqs := q.seqs ++ [q.current], current := q.current + 1 } n
      else q

/-- The constructor. -/
def make (low high reserve : ℕ) : Sequence :=
  let reserve := min (high - low) reserve
  acquire ⟨low, high, reserve, low, []⟩ reserve

def next (q : Sequence) : Except Error (ℕ × Sequence) :=
  let q := if q.seqs.length < q.reserve then q.acquire q.reserve else q
  match q.seqs with
  | value :: rest => .ok (value, { q with seqs := rest })
  | [] =>
      if q.current = q.high then .error (.noSequence q.low q.high q.current)
      else .ok (q.current, { q with current := q.current + 1 })

def release (q : Sequence) (seq : ℕ) : Sequence :=
  if q.low ≤ seq ∧ seq < q.high then { q with seqs := q.seqs ++ [seq] } else q

/-- The numbers in use and those in the queue are different, and the counter has
passed all of them. -/
structure Pool (q : Sequence) (used : ℕ → Prop) : Prop where
  bound : q.current ≤ q.high
  start : q.low ≤ q.current
  nodup : q.seqs.Nodup
  queued : ∀ n ∈ q.seqs, q.low ≤ n ∧ n < q.current
  taken : ∀ n, used n → q.low ≤ n ∧ n < q.current
  apart : ∀ n ∈ q.seqs, ¬ used n

variable {q q' : Sequence} {used : ℕ → Prop} {n : ℕ}

theorem Pool.acquire (h : Pool q used) (count : ℕ) : Pool (q.acquire count) used := by
  induction count generalizing q with
  | zero => exact h
  | succ count ih =>
      simp only [Sequence.acquire]
      split_ifs with hlt
      · apply ih
        refine ⟨hlt, Nat.le_succ_of_le h.start, ?_, fun n hn ↦ ?_, fun n hn ↦ ?_, fun n hn ↦ ?_⟩
        · refine List.nodup_append.mpr ⟨h.nodup, by simp, ?_⟩
          rintro n hn m hm rfl
          rw [List.mem_singleton.mp hm] at hn
          exact absurd (h.queued _ hn).2 (Nat.lt_irrefl _)
        · rcases List.mem_append.mp hn with hold | hnew
          · exact ⟨(h.queued n hold).1, Nat.lt_succ_of_lt (h.queued n hold).2⟩
          · rw [List.mem_singleton.mp hnew]
            exact ⟨h.start, Nat.lt_succ_self _⟩
        · exact ⟨(h.taken n hn).1, Nat.lt_succ_of_lt (h.taken n hn).2⟩
        · rcases List.mem_append.mp hn with hold | hnew
          · exact h.apart n hold
          · rw [List.mem_singleton.mp hnew]
            exact fun hused ↦ absurd (h.taken _ hused).2 (Nat.lt_irrefl _)
      · exact h

theorem pool_make (low high reserve : ℕ) (h : low ≤ high) :
    Pool (make low high reserve) fun _ ↦ False := by
  apply Pool.acquire
  exact ⟨h, Nat.le_refl _, List.nodup_nil, by simp, by simp, by simp⟩

/-- `next` gives a number that is not in use. -/
theorem Pool.next (h : Pool q used) (hnext : q.next = .ok (n, q')) :
    ¬ used n ∧ Pool q' fun m ↦ m = n ∨ used m := by
  unfold Sequence.next at hnext
  set p := if q.seqs.length < q.reserve then q.acquire q.reserve else q with hp
  have hpool : Pool p used := by
    rw [hp]
    split_ifs
    · exact h.acquire _
    · exact h
  clear_value p
  cases hseqs : p.seqs with
  | cons value rest =>
      simp only [hseqs, Except.ok.injEq, Prod.mk.injEq] at hnext
      obtain ⟨rfl, rfl⟩ := hnext
      have hmem : value ∈ p.seqs := by simp [hseqs]
      have hsub : ∀ m ∈ rest, m ∈ p.seqs := by
        intro m hm
        simp [hseqs, hm]
      have hnodup := hpool.nodup
      rw [hseqs, List.nodup_cons] at hnodup
      refine ⟨hpool.apart value hmem, hpool.bound, hpool.start, hnodup.2,
        fun m hm ↦ hpool.queued m (hsub m hm), ?_, ?_⟩
      · rintro m (rfl | hm)
        · exact hpool.queued m hmem
        · exact hpool.taken m hm
      · rintro m hm (rfl | hused)
        · exact hnodup.1 hm
        · exact hpool.apart m (hsub m hm) hused
  | nil =>
      simp only [hseqs] at hnext
      split_ifs at hnext with hend
      obtain ⟨rfl, rfl⟩ := Prod.mk.inj (Except.ok.inj hnext)
      refine ⟨fun hused ↦ absurd (hpool.taken _ hused).2 (Nat.lt_irrefl _),
        Nat.lt_of_le_of_ne hpool.bound hend, Nat.le_succ_of_le hpool.start, List.nodup_nil,
        by simp, ?_, by simp⟩
      rintro m (rfl | hm)
      · exact ⟨hpool.start, Nat.lt_succ_self _⟩
      · exact ⟨(hpool.taken m hm).1, Nat.lt_succ_of_lt (hpool.taken m hm).2⟩

theorem acquire_current_le (q : Sequence) (count : ℕ) :
    (q.acquire count).current ≤ q.current + count ∧ (q.acquire count).high = q.high := by
  induction count generalizing q with
  | zero => exact ⟨Nat.le_refl _, rfl⟩
  | succ count ih =>
      simp only [Sequence.acquire]
      split_ifs
      · obtain ⟨hle, hhigh⟩ := ih { q with seqs := q.seqs ++ [q.current], current := q.current + 1 }
        exact ⟨Nat.le_trans hle (by simp; omega), hhigh⟩
      · exact ⟨by omega, rfl⟩

theorem make_current_lt {low high reserve : ℕ} (h : low + reserve < high) :
    (make low high reserve).current < (make low high reserve).high := by
  obtain ⟨hle, hhigh⟩ := acquire_current_le ⟨low, high, min (high - low) reserve, low, []⟩
    (min (high - low) reserve)
  rw [make, hhigh]
  have hmin := Nat.min_le_right (high - low) reserve
  exact Nat.lt_of_le_of_lt hle (Nat.lt_of_le_of_lt (Nat.add_le_add_left hmin low) h)

theorem acquire_seqs_prefix (q : Sequence) (count : ℕ) :
    ∃ rest, (q.acquire count).seqs = q.seqs ++ rest := by
  induction count generalizing q with
  | zero => exact ⟨[], by simp [Sequence.acquire]⟩
  | succ count ih =>
      simp only [Sequence.acquire]
      split_ifs
      · obtain ⟨rest, hrest⟩ :=
          ih { q with seqs := q.seqs ++ [q.current], current := q.current + 1 }
        exact ⟨q.current :: rest, by rw [hrest]; simp⟩
      · exact ⟨[], by simp⟩

/-- `next` does not throw while the counter has numbers. -/
theorem next_of_lt (h : q.current < q.high) : ∃ n q', q.next = .ok (n, q') := by
  unfold Sequence.next
  set p := if q.seqs.length < q.reserve then q.acquire q.reserve else q with hp
  have hfilled : p.seqs ≠ [] ∨ p.current ≠ p.high := by
    rw [hp]
    split_ifs with hfew
    · left
      obtain ⟨count, hcount⟩ : ∃ count, q.reserve = count + 1 :=
        Nat.exists_eq_succ_of_ne_zero (by omega)
      rw [hcount, Sequence.acquire, if_pos h]
      obtain ⟨rest, hrest⟩ := acquire_seqs_prefix
        { q with seqs := q.seqs ++ [q.current], current := q.current + 1 } count
      rw [hrest]
      simp
    · exact .inr (Nat.ne_of_lt h)
  clear_value p
  cases hseqs : p.seqs with
  | cons value rest =>
      simp only [hseqs]
      exact ⟨_, _, rfl⟩
  | nil =>
      simp only [hseqs, if_neg (hfilled.resolve_left (absurd hseqs))]
      exact ⟨_, _, rfl⟩

/-- A number in use goes back to the queue. -/
theorem Pool.release (h : Pool q used) (hn : used n) :
    (q.release n).seqs = q.seqs ++ [n] ∧ Pool (q.release n) fun m ↦ m ≠ n ∧ used m := by
  obtain ⟨hlow, hlt⟩ := h.taken n hn
  have hrange : q.low ≤ n ∧ n < q.high := ⟨hlow, Nat.lt_of_lt_of_le hlt h.bound⟩
  rw [Sequence.release, if_pos hrange]
  refine ⟨rfl, h.bound, h.start, ?_, fun m hm ↦ ?_, fun m hm ↦ h.taken m hm.2, fun m hm ↦ ?_⟩
  · refine List.nodup_append.mpr ⟨h.nodup, by simp, ?_⟩
    rintro a ha b hb rfl
    rw [List.mem_singleton.mp hb] at ha
    exact h.apart n ha hn
  · rcases List.mem_append.mp hm with hold | hnew
    · exact h.queued m hold
    · rw [List.mem_singleton.mp hnew]
      exact ⟨hlow, hlt⟩
  · rintro ⟨hne, hused⟩
    rcases List.mem_append.mp hm with hold | hnew
    · exact h.apart m hold hused
    · exact hne (List.mem_singleton.mp hnew)

theorem Pool.mono {used' : ℕ → Prop} (h : Pool q used) (hsub : ∀ n, used' n → used n) :
    Pool q used' :=
  ⟨h.bound, h.start, h.nodup, h.queued, fun n hn ↦ h.taken n (hsub n hn),
    fun n hn hused ↦ h.apart n hn (hsub n hused)⟩

end Sequence

end WiseKernel.Core
