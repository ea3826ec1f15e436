import Mathlib.Data.List.Basic
import Mathlib.Data.Nat.Init
import WiseKernel.Lib.Window

/-!
# Tokens between delimiters

The parts of a list between the elements that satisfy a predicate, empty parts left
out, are its maximal sublists without such an element, each of which has a place in
the list.
-/

namespace WiseKernel.Lib

variable {α : Type*} {p : α → Bool} {l w : List α} {d : α}

/-- The parts that are not empty. -/
def tokens (p : α → Bool) (l : List α) : List (List α) :=
  (l.splitOnP p).filter fun part ↦ !part.isEmpty

theorem tokens_nil : tokens p [] = [] := rfl

theorem tokens_append_cons (hd : p d = true) (w l : List α) :
    tokens p (w ++ d :: l) = tokens p w ++ tokens p l := by
  rw [tokens, List.splitOnP_append_cons w l hd, List.filter_append, tokens, tokens]

theorem tokens_cons (hd : p d = true) (l : List α) : tokens p (d :: l) = tokens p l :=
  tokens_append_cons hd [] l

theorem tokens_of_forall (hw : ∀ c ∈ w, p c = false) (hne : w ≠ []) : tokens p w = [w] := by
  rw [tokens, List.splitOnP_eq_singleton hw, List.filter_cons_of_pos, List.filter_nil]
  simpa using hne

/-- Delimiters in front make no token. -/
theorem tokens_append (hw : ∀ c ∈ w, p c = true) (l : List α) :
    tokens p (w ++ l) = tokens p l := by
  induction w with
  | nil => rfl
  | cons c w ih =>
      have htail := ih fun c hc ↦ hw c (List.mem_cons_of_mem _ hc)
      rw [List.cons_append, tokens_cons (hw c List.mem_cons_self), htail]

/-! ## Places -/

/-- The elements from `i` up to `j` are no delimiters, and there is a delimiter or the
end of the list on either side. -/
structure IsToken (p : α → Bool) (l : List α) (i j : ℕ) : Prop where
  lt : i < j
  le : j ≤ l.length
  inside : ∀ k c, i ≤ k → k < j → l[k]? = some c → p c = false
  left : ∀ k c, k + 1 = i → l[k]? = some c → p c = true
  right : ∀ c, l[j]? = some c → p c = true

theorem isToken_self (hw : ∀ c ∈ w, p c = false) {i j : ℕ} :
    IsToken p w i j ↔ w ≠ [] ∧ i = 0 ∧ j = w.length := by
  constructor
  · intro h
    have hlt := h.lt
    have hle := h.le
    refine ⟨?_, ?_, ?_⟩
    · rintro rfl
      rw [List.length_nil] at hle
      omega
    · cases i with
      | zero => rfl
      | succ k =>
          have hk : k < w.length := by omega
          have htrue := h.left k w[k] rfl (List.getElem?_eq_getElem hk)
          rw [hw _ (List.getElem_mem hk)] at htrue
          cases htrue
    · by_contra hj
      have hj : j < w.length := by omega
      have htrue := h.right w[j] (List.getElem?_eq_getElem hj)
      rw [hw _ (List.getElem_mem hj)] at htrue
      cases htrue
  · rintro ⟨hne, rfl, rfl⟩
    constructor
    · exact List.length_pos_of_ne_nil hne
    · exact Nat.le_refl _
    · intro k c _ _ hc
      exact hw c (List.mem_of_getElem? hc)
    · exact nofun
    · intro c hc
      rw [List.getElem?_eq_none (Nat.le_refl _)] at hc
      cases hc

theorem getElem?_behind (w : List α) (d : α) (l : List α) (k : ℕ) :
    (w ++ d :: l)[k + w.length + 1]? = l[k]? := by
  rw [List.getElem?_append_right (by omega)]
  have hsub : k + w.length + 1 - w.length = k + 1 := by omega
  rw [hsub, List.getElem?_cons_succ]

theorem getElem?_delimiter (w : List α) (d : α) (l : List α) :
    (w ++ d :: l)[w.length]? = some d := by
  rw [List.getElem?_append_right (Nat.le_refl _), Nat.sub_self, List.getElem?_cons_zero]

theorem getElem?_before {k : ℕ} (d : α) (l : List α) (hk : k < w.length) :
    (w ++ d :: l)[k]? = some w[k] := by
  rw [List.getElem?_append_left hk, List.getElem?_eq_getElem hk]

theorem IsToken.shift (hd : p d = true) (w : List α) {i j : ℕ} (h : IsToken p l i j) :
    IsToken p (w ++ d :: l) (i + w.length + 1) (j + w.length + 1) where
  lt := by
    have hlt := h.lt
    omega
  le := by
    have hle := h.le
    rw [List.length_append, List.length_cons]
    omega
  inside k c hi hj hc := by
    obtain ⟨m, rfl⟩ : ∃ m, k = m + w.length + 1 := ⟨k - (w.length + 1), by omega⟩
    rw [getElem?_behind] at hc
    exact h.inside m c (by omega) (by omega) hc
  left k c hk hc := by
    cases i with
    | zero =>
        obtain rfl : k = w.length := by omega
        rw [getElem?_delimiter] at hc
        cases hc
        exact hd
    | succ m =>
        obtain rfl : k = m + w.length + 1 := by omega
        rw [getElem?_behind] at hc
        exact h.left m c rfl hc
  right c hc := by
    rw [getElem?_behind] at hc
    exact h.right c hc

theorem IsToken.unshift {i j : ℕ} (hi : w.length < i) (h : IsToken p (w ++ d :: l) i j) :
    ∃ i' j', i = i' + w.length + 1 ∧ j = j' + w.length + 1 ∧ IsToken p l i' j' := by
  have hlt := h.lt
  obtain ⟨m, rfl⟩ : ∃ m, i = m + w.length + 1 := ⟨i - (w.length + 1), by omega⟩
  obtain ⟨n, rfl⟩ : ∃ n, j = n + w.length + 1 := ⟨j - (w.length + 1), by omega⟩
  refine ⟨m, n, rfl, rfl, ?_⟩
  constructor
  · omega
  · have hle := h.le
    rw [List.length_append, List.length_cons] at hle
    omega
  · intro k c hm hn hc
    rw [← getElem?_behind w d l k] at hc
    exact h.inside _ c (by omega) (by omega) hc
  · intro k c hk hc
    rw [← getElem?_behind w d l k] at hc
    exact h.left _ c (by omega) hc
  · intro c hc
    rw [← getElem?_behind w d l n] at hc
    exact h.right c hc

/-- A token is the part before the first delimiter, or lies behind it. -/
theorem isToken_append_cons (hw : ∀ c ∈ w, p c = false) (hd : p d = true) {i j : ℕ} :
    IsToken p (w ++ d :: l) i j ↔ (w ≠ [] ∧ i = 0 ∧ j = w.length) ∨
      ∃ i' j', i = i' + w.length + 1 ∧ j = j' + w.length + 1 ∧ IsToken p l i' j' := by
  constructor
  · intro h
    by_cases hi : w.length < i
    · exact .inr (h.unshift hi)
    · left
      have hlt := h.lt
      have hj : j ≤ w.length := by
        by_contra hj
        have hfalse := h.inside w.length d (by omega) (by omega) (getElem?_delimiter w d l)
        rw [hd] at hfalse
        cases hfalse
      rw [← isToken_self hw]
      constructor
      · exact hlt
      · exact hj
      · intro k c _ _ hc
        exact hw c (List.mem_of_getElem? hc)
      · intro k c hk hc
        have hkw : k < w.length := by omega
        apply h.left k c hk
        rw [getElem?_before d l hkw, ← List.getElem?_eq_getElem hkw, hc]
      · intro c hc
        have hjw : j < w.length := (List.getElem?_eq_some_iff.mp hc).1
        apply h.right c
        rw [getElem?_before d l hjw, ← List.getElem?_eq_getElem hjw, hc]
  · rintro (⟨hne, rfl, rfl⟩ | ⟨i', j', rfl, rfl, h⟩)
    · constructor
      · exact List.length_pos_of_ne_nil hne
      · simp
      · intro k c _ hk hc
        rw [getElem?_before d l hk] at hc
        cases hc
        exact hw _ (List.getElem_mem hk)
      · exact nofun
      · intro c hc
        rw [getElem?_delimiter] at hc
        cases hc
        exact hd
    · exact h.shift hd w

/-! ## All tokens -/

/-- The part of a list from `i` up to `j`. -/
def slice (l : List α) (r : ℕ × ℕ) : List α := window l r.1 (r.2 - r.1)

/-- The places are those of the tokens, from left to right. -/
structure Ranges (p : α → Bool) (l : List α) (rs : List (ℕ × ℕ)) : Prop where
  ordered : rs.Pairwise fun r r' ↦ r.2 < r'.1
  mem : ∀ r, r ∈ rs ↔ IsToken p l r.1 r.2

theorem slice_append_cons (w : List α) (d : α) (l : List α) (r : ℕ × ℕ) :
    slice (w ++ d :: l) (r.1 + w.length + 1, r.2 + w.length + 1) = slice l r := by
  have hdrop : (w ++ d :: l).drop (r.1 + w.length + 1) = l.drop r.1 := by
    rw [List.drop_append, List.drop_of_length_le (by omega), List.nil_append]
    have hsub : r.1 + w.length + 1 - w.length = r.1 + 1 := by omega
    rw [hsub, List.drop_succ_cons]
  have hsub : r.2 + w.length + 1 - (r.1 + w.length + 1) = r.2 - r.1 := by omega
  rw [slice, window, hdrop, hsub, slice, window]

theorem slice_self (w l : List α) : slice (w ++ l) (0, w.length) = w := by
  rw [slice, window, List.drop_zero, Nat.sub_zero, List.take_left]

/-- What stands before the first delimiter, if there is one. -/
theorem exists_append_cons (p : α → Bool) (l : List α) :
    (∀ c ∈ l, p c = false) ∨
      ∃ w d rest, l = w ++ d :: rest ∧ (∀ c ∈ w, p c = false) ∧ p d = true := by
  induction l with
  | nil => exact .inl nofun
  | cons c l ih =>
      cases hc : p c with
      | true => exact .inr ⟨[], c, l, rfl, nofun, hc⟩
      | false =>
          rcases ih with hall | ⟨w, d, rest, rfl, hw, hd⟩
          · exact .inl (List.forall_mem_cons.mpr ⟨hc, hall⟩)
          · exact .inr ⟨c :: w, d, rest, rfl, List.forall_mem_cons.mpr ⟨hc, hw⟩, hd⟩

/-- Places in a list, as places in one with `n` elements and a delimiter in front. -/
def shift (n : ℕ) (rs : List (ℕ × ℕ)) : List (ℕ × ℕ) :=
  rs.map fun r ↦ (r.1 + n + 1, r.2 + n + 1)

theorem Ranges.pairwise_shift {rs : List (ℕ × ℕ)} (h : Ranges p l rs) (n : ℕ) :
    (shift n rs).Pairwise fun r r' ↦ r.2 < r'.1 := by
  rw [shift, List.pairwise_map]
  apply h.ordered.imp
  intro r r' hr
  omega

theorem Ranges.mem_shift {rs : List (ℕ × ℕ)} (h : Ranges p l rs) {n : ℕ} {r : ℕ × ℕ} :
    r ∈ shift n rs ↔ ∃ i j, r.1 = i + n + 1 ∧ r.2 = j + n + 1 ∧ IsToken p l i j := by
  rw [shift, List.mem_map]
  constructor
  · rintro ⟨r, hr, rfl⟩
    exact ⟨r.1, r.2, rfl, rfl, (h.mem r).mp hr⟩
  · rintro ⟨i, j, hi, hj, hij⟩
    exact ⟨(i, j), (h.mem (i, j)).mpr hij, Prod.ext hi.symm hj.symm⟩

theorem map_slice_shift (w : List α) (d : α) (l : List α) (rs : List (ℕ × ℕ)) :
    (shift w.length rs).map (slice (w ++ d :: l)) = rs.map (slice l) := by
  rw [shift, List.map_map]
  apply List.map_congr_left
  intro r _
  exact slice_append_cons w d l r

/-- The tokens are all the maximal parts without a delimiter. -/
theorem exists_ranges (p : α → Bool) (l : List α) :
    ∃ rs, Ranges p l rs ∧ tokens p l = rs.map (slice l) := by
  induction hn : l.length using Nat.strong_induction_on generalizing l with
  | _ n ih =>
  rcases exists_append_cons p l with hall | ⟨w, d, rest, rfl, hw, hd⟩
  · by_cases hne : l = []
    · subst hne
      refine ⟨[], ⟨List.Pairwise.nil, ?_⟩, rfl⟩
      intro r
      rw [isToken_self hall]
      simp
    · refine ⟨[(0, l.length)], ⟨List.pairwise_singleton .., ?_⟩, ?_⟩
      · intro r
        rw [isToken_self hall, List.mem_singleton, Prod.ext_iff]
        simp [hne]
      · have hself := slice_self l []
        rw [List.append_nil] at hself
        rw [tokens_of_forall hall hne, List.map_singleton, hself]
  · have hlength : rest.length < n := by
      rw [← hn, List.length_append, List.length_cons]
      omega
    obtain ⟨rs, hrs, htokens⟩ := ih rest.length hlength rest rfl
    by_cases hne : w = []
    · subst hne
      refine ⟨shift 0 rs, ⟨hrs.pairwise_shift 0, ?_⟩, ?_⟩
      · intro r
        rw [hrs.mem_shift, isToken_append_cons hw hd]
        simp
      · rw [List.nil_append, tokens_cons hd, htokens]
        exact (map_slice_shift [] d rest rs).symm
    · refine ⟨(0, w.length) :: shift w.length rs, ⟨?_, ?_⟩, ?_⟩
      · apply List.pairwise_cons.mpr
        refine ⟨?_, hrs.pairwise_shift w.length⟩
        intro r hr
        obtain ⟨i, _, hi, -⟩ := hrs.mem_shift.mp hr
        omega
      · intro r
        rw [List.mem_cons, hrs.mem_shift, isToken_append_cons hw hd, Prod.ext_iff]
        simp [hne]
      · rw [tokens_append_cons hd, tokens_of_forall hw hne, htokens, List.map_cons,
          map_slice_shift, slice_self, List.singleton_append]

end WiseKernel.Lib
