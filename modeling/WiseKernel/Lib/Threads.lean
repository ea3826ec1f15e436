import Mathlib.Algebra.BigOperators.Group.Finset.Basic
import Mathlib.Logic.Function.Basic
import WiseKernel.Lib.Runs

/-!
# Threads with critical sections

Threads that share a state and touch it in blocks under a lock.  A block is one
step; between two blocks of a call every other thread may take steps of its own,
and what a thread remembers meanwhile is its place.  The proof rule is that of
Owicki and Gries: what a thread relies on at its place is not broken by the blocks
of the others.
-/

namespace WiseKernel.Lib

/-- A shared state and the place of every thread. -/
structure Threads (ι σ π : Type*) where
  shared : σ
  place : ι → π

namespace Threads

variable {ι σ π α : Type*} [DecidableEq ι] {block : σ → π → α → Option (σ × π)}
  {ok : σ → π → α → Prop} {t t' : Threads ι σ π} {a : ι × α}

/-- The next block of one thread. -/
def next (block : σ → π → α → Option (σ × π)) (t : Threads ι σ π) (a : ι × α) :
    Option (Threads ι σ π) :=
  (block t.shared (t.place a.1) a.2).map fun r ↦ ⟨r.1, Function.update t.place a.1 r.2⟩

/-- A condition on the blocks that are taken. -/
def Each (ok : σ → π → α → Prop) (t : Threads ι σ π) (a : ι × α) : Prop :=
  ok t.shared (t.place a.1) a.2

instance [∀ s p a, Decidable (ok s p a)] (t : Threads ι σ π) (a : ι × α) :
    Decidable (Each ok t a) :=
  inferInstanceAs (Decidable (ok t.shared (t.place a.1) a.2))

theorem next_eq_some (h : t.next block a = some t') : ∃ s p,
    block t.shared (t.place a.1) a.2 = some (s, p) ∧
      t' = ⟨s, Function.update t.place a.1 p⟩ := by
  rw [next, Option.map_eq_some_iff] at h
  obtain ⟨⟨s, p⟩, hblock, rfl⟩ := h
  exact ⟨s, p, hblock, rfl⟩

/-- The rule: every block keeps the invariant, reaches what is relied on at the next
place of its thread, and breaks nothing that another thread relies on. -/
theorem reaches_invariant {inv : σ → Prop} {relies : π → σ → Prop}
    (h : Reaches (next block) (Each ok) t t') (hinv : inv t.shared)
    (hrelies : ∀ i, relies (t.place i) t.shared)
    (hblock : ∀ s p a s' p', inv s → relies p s → ok s p a → block s p a = some (s', p') →
      inv s' ∧ relies p' s' ∧ ∀ q, relies q s → relies q s') :
    inv t'.shared ∧ ∀ i, relies (t'.place i) t'.shared := by
  refine @Reaches.invariant _ _ _ _
    (fun t : Threads ι σ π ↦ inv t.shared ∧ ∀ i, relies (t.place i) t.shared) _ _ h
    ⟨hinv, hrelies⟩ ?_
  rintro t ⟨i, a⟩ t' ⟨hinv, hrelies⟩ hok hnext
  obtain ⟨s, p, hstep, rfl⟩ := next_eq_some hnext
  obtain ⟨hinv', hself, hothers⟩ := hblock _ _ _ _ _ hinv (hrelies i) hok hstep
  refine ⟨hinv', fun j ↦ ?_⟩
  change relies (Function.update t.place i p j) s
  by_cases hj : j = i
  · rw [hj, Function.update_self]
    exact hself
  · rw [Function.update_of_ne hj]
    exact hothers _ (hrelies j)

/-- The rule for an invariant of the shared state alone. -/
theorem reaches_shared {inv : σ → Prop} (h : Reaches (next block) (Each ok) t t')
    (hinv : inv t.shared)
    (hblock : ∀ s p a s' p', inv s → ok s p a → block s p a = some (s', p') → inv s') :
    inv t'.shared :=
  (@reaches_invariant ι σ π α _ block ok t t' inv (fun _ _ ↦ True) h hinv (fun _ ↦ trivial)
    fun s p a s' p' hs _ hok hstep ↦ ⟨hblock s p a s' p' hs hok hstep, trivial,
      fun _ _ ↦ trivial⟩).1

/-- Something that one thread at a time has: `busy` holds of the place of the thread that has
it, `free` while no thread has it. -/
def Exclusive (has : π → Prop) (free : σ → Prop) (busy : σ → π → Prop) (t : Threads ι σ π) :
    Prop :=
  (free t.shared ∧ ∀ i, ¬ has (t.place i)) ∨
    ∃ i, has (t.place i) ∧ busy t.shared (t.place i) ∧ ∀ j, has (t.place j) → j = i

omit [DecidableEq ι] in
theorem Exclusive.eq {has : π → Prop} {free : σ → Prop} {busy : σ → π → Prop}
    (h : Exclusive has free busy t) {i j : ι} (hi : has (t.place i)) (hj : has (t.place j)) :
    i = j := by
  rcases h with ⟨-, hnone⟩ | ⟨k, -, -, hall⟩
  · exact absurd hi (hnone i)
  · rw [hall i hi, hall j hj]

/-- The rule: a thread gets it only while it is free, and the others leave alone what the thread
that has it relies on. -/
theorem reaches_exclusive {has : π → Prop} {free : σ → Prop} {busy : σ → π → Prop}
    (h : Reaches (next block) (Each ok) t t') (hstart : Exclusive has free busy t)
    (hother : ∀ s p a s' p', ¬ has p → ok s p a → block s p a = some (s', p') →
      (has p' → (∀ q, ¬ busy s q) ∧ (free s → busy s' p')) ∧
        (¬ has p' → (free s → free s') ∧ ∀ q, has q → busy s q → busy s' q))
    (hself : ∀ s p a s' p', has p → busy s p → ok s p a → block s p a = some (s', p') →
      (has p' → busy s' p') ∧ (¬ has p' → free s')) :
    Exclusive has free busy t' := by
  refine h.invariant hstart ?_
  rintro t ⟨i, a⟩ t' ht hok hnext
  obtain ⟨s, p, hblock, rfl⟩ := next_eq_some hnext
  have hplace : ∀ j, j ≠ i → Function.update t.place i p j = t.place j :=
    fun j hj ↦ Function.update_of_ne hj p t.place
  have hi : Function.update t.place i p i = p := Function.update_self i p t.place
  change Exclusive has free busy ⟨s, Function.update t.place i p⟩
  generalize Function.update t.place i p = place' at hplace hi ⊢
  by_cases hhas : has (t.place i)
  · -- the thread that has it
    have halone : ∀ j, j ≠ i → ¬ has (t.place j) := fun j hj hj' ↦ hj (ht.eq hj' hhas)
    have hrelies : busy t.shared (t.place i) := by
      rcases ht with ⟨-, hnone⟩ | ⟨k, -, hk, hall⟩
      · exact absurd hhas (hnone i)
      · rwa [hall i hhas]
    obtain ⟨hkeeps, hgives⟩ := hself _ _ _ _ _ hhas hrelies hok hblock
    by_cases hnew : has p
    · subst hi
      refine .inr ⟨i, hnew, hkeeps hnew, fun j hj ↦ ?_⟩
      by_contra hne
      exact halone j hne (hplace j hne ▸ hj)
    · refine .inl ⟨hgives hnew, fun j hj ↦ ?_⟩
      change has (place' j) at hj
      by_cases hji : j = i
      · rw [hji, hi] at hj
        exact hnew hj
      · exact halone j hji (hplace j hji ▸ hj)
  · obtain ⟨htakes, hleaves⟩ := hother _ _ _ _ _ hhas hok hblock
    by_cases hnew : has p
    · obtain ⟨hidle, hrelies⟩ := htakes hnew
      obtain ⟨hfree, hnone⟩ : free t.shared ∧ ∀ j, ¬ has (t.place j) := by
        rcases ht with hnone | ⟨k, -, hk, -⟩
        · exact hnone
        · exact absurd hk (hidle _)
      subst hi
      refine .inr ⟨i, hnew, hrelies hfree, fun j hj ↦ ?_⟩
      by_contra hne
      exact hnone j (hplace j hne ▸ hj)
    · obtain ⟨hfree, hrelies⟩ := hleaves hnew
      have hsame : ∀ j, has (place' j) ↔ has (t.place j) := by
        intro j
        by_cases hji : j = i
        · rw [hji, hi]
          exact iff_of_false hnew hhas
        · rw [hplace j hji]
      rcases ht with ⟨hs, hnone⟩ | ⟨k, hk, hk', hall⟩
      · exact .inl ⟨hfree hs, fun j hj ↦ hnone j ((hsame j).mp hj)⟩
      · have hki : k ≠ i := by
          rintro rfl
          exact hhas hk
        refine .inr ⟨k, (hsame k).mpr hk, ?_, fun j hj ↦ hall j ((hsame j).mp hj)⟩
        change busy s (place' k)
        rw [hplace k hki]
        exact hrelies _ hk hk'

/-- What the threads have at their places, taken together. -/
def sum [Fintype ι] {M : Type*} [AddCommMonoid M] (f : π → M) (place : ι → π) : M :=
  ∑ i, f (place i)

/-- A thread that goes elsewhere leaves what it had and brings what it gets. -/
theorem sum_update [Fintype ι] {M : Type*} [AddCommMonoid M] (f : π → M) (place : ι → π) (i : ι)
    (p : π) : sum f (Function.update place i p) + f (place i) = sum f place + f p := by
  have hothers : ∑ j ∈ Finset.univ.erase i, f (Function.update place i p j) =
      ∑ j ∈ Finset.univ.erase i, f (place j) := by
    apply Finset.sum_congr rfl
    intro j hj
    rw [Function.update_of_ne (Finset.ne_of_mem_erase hj)]
  have hnew := Finset.add_sum_erase Finset.univ (fun j ↦ f (Function.update place i p j))
    (Finset.mem_univ i)
  have hold := Finset.add_sum_erase Finset.univ (fun j ↦ f (place j)) (Finset.mem_univ i)
  rw [sum, sum, ← hnew, ← hold, hothers, Function.update_self, add_right_comm,
    add_comm (f p), add_right_comm]

omit [DecidableEq ι] in
theorem sum_eq_zero [Fintype ι] {M : Type*} [AddCommMonoid M] {f : π → M} {place : ι → π}
    (h : ∀ i, f (place i) = 0) : sum f place = 0 :=
  Finset.sum_eq_zero fun i _ ↦ h i

end Threads

end WiseKernel.Lib
