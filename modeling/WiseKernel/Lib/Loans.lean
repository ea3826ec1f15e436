import Mathlib.Data.List.Nodup
import Mathlib.Data.List.Perm.Basic
import Mathlib.Tactic.Common

/-!
# Loans

A pool keeps the idle ones of its things in a queue and lends them out.
`Loans all idle lent` says that everything the pool owns is in exactly one of
the two lists, and there once; `Shares` divides what is lent among holders.
-/

namespace WiseKernel.Lib

variable {ι : Type*}

structure Loans (all : ι → Prop) (idle lent : List ι) : Prop where
  idle_nodup : idle.Nodup
  lent_nodup : lent.Nodup
  apart : ∀ x ∈ idle, x ∉ lent
  all_iff : ∀ x, all x ↔ x ∈ idle ∨ x ∈ lent

namespace Loans

variable {all all' : ι → Prop} {idle lent lent' : List ι} {x : ι}

theorem empty : Loans (fun _ : ι ↦ False) [] [] :=
  ⟨List.nodup_nil, List.nodup_nil, by simp, by simp⟩

theorem mem_idle_iff (h : Loans all idle lent) : x ∈ idle ↔ all x ∧ x ∉ lent := by
  constructor
  · intro hx
    exact ⟨(h.all_iff x).mpr (.inl hx), h.apart x hx⟩
  · rintro ⟨hall, hx⟩
    exact ((h.all_iff x).mp hall).resolve_right hx

theorem congr (h : Loans all idle lent) (hall : ∀ x, all' x ↔ all x) : Loans all' idle lent :=
  ⟨h.idle_nodup, h.lent_nodup, h.apart, fun x ↦ (hall x).trans (h.all_iff x)⟩

theorem perm (h : Loans all idle lent) (hlent : lent'.Perm lent) : Loans all idle lent' := by
  refine ⟨h.idle_nodup, hlent.nodup_iff.mpr h.lent_nodup, ?_, ?_⟩
  · intro x hx hmem
    exact h.apart x hx (hlent.mem_iff.mp hmem)
  · intro x
    rw [h.all_iff, hlent.mem_iff]

/-- The first idle one is lent. -/
theorem lend (h : Loans all (x :: idle) lent) : Loans all idle (x :: lent) := by
  obtain ⟨hx, hidle⟩ := List.nodup_cons.mp h.idle_nodup
  refine ⟨hidle, List.nodup_cons.mpr ⟨h.apart x List.mem_cons_self, h.lent_nodup⟩, ?_, ?_⟩
  · intro y hy hmem
    rcases List.mem_cons.mp hmem with rfl | hlent
    · exact hx hy
    · exact h.apart y (List.mem_cons_of_mem x hy) hlent
  · intro y
    rw [h.all_iff, List.mem_cons, List.mem_cons]
    tauto

/-- A new one is lent at once. -/
theorem lend_new (h : Loans all idle lent) (hx : ¬ all x) :
    Loans (fun y ↦ y = x ∨ all y) idle (x :: lent) := by
  have hout : x ∉ idle ∧ x ∉ lent := by
    have hiff := h.all_iff x
    tauto
  refine ⟨h.idle_nodup, List.nodup_cons.mpr ⟨hout.2, h.lent_nodup⟩, ?_, ?_⟩
  · intro y hy hmem
    rcases List.mem_cons.mp hmem with rfl | hlent
    · exact hout.1 hy
    · exact h.apart y hy hlent
  · intro y
    rw [h.all_iff, List.mem_cons]
    tauto

/-- A new one goes to the end of the queue. -/
theorem stock (h : Loans all idle lent) (hx : ¬ all x) :
    Loans (fun y ↦ y = x ∨ all y) (idle ++ [x]) lent := by
  have hout : x ∉ idle ∧ x ∉ lent := by
    have hiff := h.all_iff x
    tauto
  refine ⟨?_, h.lent_nodup, ?_, ?_⟩
  · rw [← List.concat_eq_append]
    exact h.idle_nodup.concat hout.1
  · intro y hy
    rcases List.mem_append.mp hy with hold | hnew
    · exact h.apart y hold
    · rw [List.mem_singleton.mp hnew]
      exact hout.2
  · intro y
    rw [h.all_iff, List.mem_append, List.mem_singleton]
    tauto

/-- A lent one comes back to the end of the queue. -/
theorem giveBack [DecidableEq ι] (h : Loans all idle lent) (hx : x ∈ lent) :
    Loans all (idle ++ [x]) (lent.erase x) := by
  have hmem (y : ι) : y ∈ lent.erase x ↔ y ≠ x ∧ y ∈ lent := h.lent_nodup.mem_erase_iff
  refine ⟨?_, h.lent_nodup.erase x, ?_, ?_⟩
  · rw [← List.concat_eq_append]
    exact h.idle_nodup.concat fun hidle ↦ h.apart x hidle hx
  · intro y hy
    rw [hmem]
    rcases List.mem_append.mp hy with hold | hnew
    · exact fun hlent ↦ h.apart y hold hlent.2
    · exact fun hlent ↦ hlent.1 (List.mem_singleton.mp hnew)
  · intro y
    rw [h.all_iff, List.mem_append, List.mem_singleton, hmem]
    by_cases hy : y = x
    · simp [hy, hx]
    · simp [hy]

/-- Several come back at once. -/
theorem giveBackAll [DecidableEq ι] {xs : List ι} (h : Loans all idle lent) (hxs : xs.Nodup)
    (hsub : ∀ x ∈ xs, x ∈ lent) : Loans all (idle ++ xs) (lent.filter (· ∉ xs)) := by
  refine ⟨?_, h.lent_nodup.filter _, ?_, ?_⟩
  · refine h.idle_nodup.append hxs ?_
    intro x hx hmem
    exact h.apart x hx (hsub x hmem)
  · intro x hx hmem
    obtain ⟨hlent, hnot⟩ := List.mem_filter.mp hmem
    rcases List.mem_append.mp hx with hold | hnew
    · exact h.apart x hold hlent
    · exact of_decide_eq_true hnot hnew
  · intro x
    have hx := hsub x
    rw [h.all_iff, List.mem_append, List.mem_filter, decide_eq_true_iff]
    tauto

end Loans

/-! ## Who holds what is lent -/

/-- What is lent is with several holders, each thing with one of them. -/
structure Shares {κ : Type*} (holds : κ → List ι) (lent : List ι) : Prop where
  nodup : ∀ k, (holds k).Nodup
  mem : ∀ k, ∀ x ∈ holds k, x ∈ lent
  apart : ∀ j k x, x ∈ holds j → x ∈ holds k → j = k

namespace Shares

variable {κ : Type*} {holds : κ → List ι} {lent lent' : List ι} {j k : κ}

theorem empty : Shares (fun _ : κ ↦ ([] : List ι)) lent :=
  ⟨fun _ ↦ List.nodup_nil, by simp, by simp⟩

theorem notMem (h : Shares holds lent) (hjk : j ≠ k) {x : ι} (hx : x ∈ holds k) : x ∉ holds j :=
  fun hmem ↦ hjk (h.apart j k x hmem hx)

variable [DecidableEq κ]

/-- A holder is given some that were not lent. -/
theorem grow (h : Shares holds lent) {new : List ι} (hnew : new.Nodup)
    (hout : ∀ x ∈ new, x ∉ lent) (hmem : ∀ x ∈ new, x ∈ lent') (hkept : ∀ x ∈ lent, x ∈ lent') :
    Shares (Function.update holds k (holds k ++ new)) lent' := by
  have hcases (i : κ) (x : ι) (hx : x ∈ Function.update holds k (holds k ++ new) i) :
      x ∈ holds i ∨ (i = k ∧ x ∈ new) := by
    by_cases hi : i = k
    · subst hi
      rw [Function.update_self, List.mem_append] at hx
      tauto
    · rw [Function.update_of_ne hi] at hx
      exact .inl hx
  refine ⟨?_, ?_, ?_⟩
  · intro i
    by_cases hi : i = k
    · subst hi
      rw [Function.update_self]
      refine (h.nodup i).append hnew ?_
      intro x hx hmem
      exact hout x hmem (h.mem i x hx)
    · rw [Function.update_of_ne hi]
      exact h.nodup i
  · intro i x hx
    rcases hcases i x hx with hold | ⟨-, hx⟩
    · exact hkept x (h.mem i x hold)
    · exact hmem x hx
  · intro i i' x hx hx'
    rcases hcases i x hx with hold | ⟨rfl, hxnew⟩ <;>
      rcases hcases i' x hx' with hold' | ⟨rfl, hxnew'⟩
    · exact h.apart i i' x hold hold'
    · exact absurd (h.mem i x hold) (hout x hxnew')
    · exact absurd (h.mem i' x hold') (hout x hxnew)
    · rfl

/-- A holder that has none takes over a part of another's. -/
theorem move (h : Shares holds lent) {given kept : List ι} (hk : holds k = given ++ kept)
    (hj : holds j = []) (hjk : j ≠ k) :
    Shares (Function.update (Function.update holds k kept) j given) lent := by
  have hnodup := h.nodup k
  rw [hk] at hnodup
  obtain ⟨hgiven, hkept, hdisjoint⟩ := List.nodup_append'.mp hnodup
  have hcases (i : κ) (x : ι)
      (hx : x ∈ Function.update (Function.update holds k kept) j given i) :
      (i = j ∧ x ∈ given) ∨ (i = k ∧ x ∈ kept) ∨ (i ≠ j ∧ i ≠ k ∧ x ∈ holds i) := by
    by_cases hij : i = j
    · subst hij
      rw [Function.update_self] at hx
      exact .inl ⟨rfl, hx⟩
    · rw [Function.update_of_ne hij] at hx
      by_cases hik : i = k
      · subst hik
        rw [Function.update_self] at hx
        exact .inr (.inl ⟨rfl, hx⟩)
      · rw [Function.update_of_ne hik] at hx
        exact .inr (.inr ⟨hij, hik, hx⟩)
  have hgivenk {x : ι} (hx : x ∈ given) : x ∈ holds k := by
    rw [hk]
    exact List.mem_append_left _ hx
  have hkeptk {x : ι} (hx : x ∈ kept) : x ∈ holds k := by
    rw [hk]
    exact List.mem_append_right _ hx
  refine ⟨?_, ?_, ?_⟩
  · intro i
    by_cases hij : i = j
    · subst hij
      rwa [Function.update_self]
    · rw [Function.update_of_ne hij]
      by_cases hik : i = k
      · subst hik
        rwa [Function.update_self]
      · rw [Function.update_of_ne hik]
        exact h.nodup i
  · intro i x hx
    rcases hcases i x hx with ⟨-, hx⟩ | ⟨-, hx⟩ | ⟨-, -, hx⟩
    · exact h.mem k x (hgivenk hx)
    · exact h.mem k x (hkeptk hx)
    · exact h.mem i x hx
  · intro i i' x hx hx'
    rcases hcases i x hx with ⟨hi, hg⟩ | ⟨hi, hg⟩ | ⟨hij, hik, hg⟩ <;>
      rcases hcases i' x hx' with ⟨hi', hg'⟩ | ⟨hi', hg'⟩ | ⟨hij', hik', hg'⟩
    · rw [hi, hi']
    · exact absurd hg' (hdisjoint hg)
    · exact absurd (h.apart i' k x hg' (hgivenk hg)) hik'
    · exact absurd hg (hdisjoint hg')
    · rw [hi, hi']
    · exact absurd (h.apart i' k x hg' (hkeptk hg)) hik'
    · exact absurd (h.apart i k x hg (hgivenk hg')) hik
    · exact absurd (h.apart i k x hg (hkeptk hg')) hik
    · exact h.apart i i' x hg hg'

/-- A holder gives all back. -/
theorem drop [DecidableEq ι] (h : Shares holds lent) (k : κ) :
    Shares (Function.update holds k []) (lent.filter (· ∉ holds k)) := by
  have hcases (i : κ) (x : ι) (hx : x ∈ Function.update holds k [] i) : i ≠ k ∧ x ∈ holds i := by
    by_cases hi : i = k
    · subst hi
      simp at hx
    · rw [Function.update_of_ne hi] at hx
      exact ⟨hi, hx⟩
  refine ⟨?_, ?_, ?_⟩
  · intro i
    by_cases hi : i = k
    · subst hi
      rw [Function.update_self]
      exact List.nodup_nil
    · rw [Function.update_of_ne hi]
      exact h.nodup i
  · intro i x hx
    obtain ⟨hi, hx⟩ := hcases i x hx
    exact List.mem_filter.mpr ⟨h.mem i x hx, decide_eq_true (h.notMem (Ne.symm hi) hx)⟩
  · intro i i' x hx hx'
    exact h.apart i i' x (hcases i x hx).2 (hcases i' x hx').2

end Shares

end WiseKernel.Lib
