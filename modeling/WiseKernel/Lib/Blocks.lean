import Mathlib.Data.List.Basic
import Mathlib.Tactic.Common

/-!
# Blocks of a stream

A stream is the concatenation of blocks.  Of every prefix of it some blocks
are complete, and the rest of the prefix is a proper part of the next one.
-/

namespace WiseKernel.Lib

variable {α : Type*}

/-- How many blocks are complete in the first `n` elements of the stream. -/
def complete : List (List α) → ℕ → ℕ
  | [], _ => 0
  | w :: ws, n => if w.length ≤ n then complete ws (n - w.length) + 1 else 0

theorem complete_le (ws : List (List α)) (n : ℕ) : complete ws n ≤ ws.length := by
  induction ws generalizing n with
  | nil => exact Nat.le_refl 0
  | cons w ws ih =>
      rw [complete]
      split_ifs
      · exact Nat.succ_le_succ (ih _)
      · exact Nat.zero_le _

/-- The elements in `rest` are fewer than the next block has. -/
def Incomplete : List (List α) → List α → Prop
  | [], rest => rest = []
  | w :: _, rest => rest.length < w.length

/-- A prefix of the stream is its complete blocks and a part of the next. -/
theorem exists_complete {ws : List (List α)} {xs : List α} (h : xs <+: ws.flatten) :
    ∃ rest, xs = (ws.take (complete ws xs.length)).flatten ++ rest ∧
      rest <+: (ws.drop (complete ws xs.length)).flatten ∧
      Incomplete (ws.drop (complete ws xs.length)) rest := by
  induction ws generalizing xs with
  | nil => exact ⟨xs, by simp [complete], by simpa [complete] using h,
      by simpa [complete, Incomplete] using h⟩
  | cons w ws ih =>
      rw [List.flatten_cons] at h
      by_cases hle : w.length ≤ xs.length
      · obtain ⟨ys, rfl⟩ : w <+: xs := List.prefix_of_prefix_length_le
          (List.prefix_append _ _) h hle
        have hys : ys <+: ws.flatten := (List.prefix_append_right_inj w).mp h
        obtain ⟨rest, hxs, hrest, hinc⟩ := ih hys
        have hk : complete (w :: ws) (w ++ ys).length = complete ws ys.length + 1 := by
          simp [complete]
        refine ⟨rest, ?_, ?_, ?_⟩
        · rw [hk, List.take_succ_cons, List.flatten_cons, List.append_assoc, ← hxs]
        · rw [hk, List.drop_succ_cons]
          exact hrest
        · rw [hk, List.drop_succ_cons]
          exact hinc
      · have hk : complete (w :: ws) xs.length = 0 := by simp [complete, hle]
        refine ⟨xs, by simp [hk], by simpa [hk] using h, ?_⟩
        rw [hk, List.drop_zero]
        exact Nat.lt_of_not_le hle

/-- Complete blocks at the front count, and what is behind them counts on. -/
theorem complete_append (ws vs : List (List α)) (n : ℕ) :
    complete (ws ++ vs) (ws.flatten.length + n) = ws.length + complete vs n := by
  induction ws with
  | nil => simp
  | cons w ws ih =>
      have hsub : (w :: ws).flatten.length + n - w.length = ws.flatten.length + n := by
        simp only [List.flatten_cons, List.length_append]
        omega
      rw [List.cons_append, complete, if_pos (by simp [Nat.add_assoc]), hsub, ih]
      simp only [List.length_cons]
      omega

theorem complete_of_incomplete {ws : List (List α)} {rest : List α} (h : Incomplete ws rest) :
    complete ws rest.length = 0 := by
  cases ws with
  | nil => rfl
  | cons w ws => exact if_neg (Nat.not_le.mpr h)

/-- What a prefix of the stream has of a block that is not complete in it. -/
def pending (ws : List (List α)) (xs : List α) : List α :=
  xs.drop (ws.take (complete ws xs.length)).flatten.length

theorem complete_pending {ws : List (List α)} {xs : List α} (h : xs <+: ws.flatten) :
    xs = (ws.take (complete ws xs.length)).flatten ++ pending ws xs ∧
      pending ws xs <+: (ws.drop (complete ws xs.length)).flatten ∧
      Incomplete (ws.drop (complete ws xs.length)) (pending ws xs) := by
  obtain ⟨rest, hxs, hrest, hinc⟩ := exists_complete h
  have hpending : pending ws xs = rest := (congrArg (List.drop _) hxs).trans List.drop_left
  rw [hpending]
  exact ⟨hxs, hrest, hinc⟩

/-- More of the stream is more of the blocks behind those that are complete. -/
theorem complete_more {ws : List (List α)} {xs ys : List α} (h : xs ++ ys <+: ws.flatten) :
    pending ws xs ++ ys <+: (ws.drop (complete ws xs.length)).flatten ∧
      complete ws (xs ++ ys).length = complete ws xs.length +
        complete (ws.drop (complete ws xs.length)) (pending ws xs ++ ys).length ∧
      pending ws (xs ++ ys) =
        pending (ws.drop (complete ws xs.length)) (pending ws xs ++ ys) := by
  obtain ⟨hxs, -, -⟩ := complete_pending ((List.prefix_append xs ys).trans h)
  set k := complete ws xs.length with hk
  set rest := pending ws xs with hrest
  have hws : (ws.take k).flatten ++ (ws.drop k).flatten = ws.flatten := by
    rw [← List.flatten_append, List.take_append_drop]
  have hlen : (ws.take k).length = k := List.length_take_of_le (complete_le ws _)
  have hcut : xs ++ ys = (ws.take k).flatten ++ (rest ++ ys) := by
    rw [← List.append_assoc, ← hxs]
  have hsum : complete ws (xs ++ ys).length = k + complete (ws.drop k) (rest ++ ys).length := by
    have happend := complete_append (ws.take k) (ws.drop k) (rest ++ ys).length
    rwa [List.take_append_drop, hlen, ← List.length_append, ← hcut] at happend
  refine ⟨?_, hsum, ?_⟩
  · rw [hcut, ← hws] at h
    exact (List.prefix_append_right_inj _).mp h
  · rw [pending, hsum, List.take_add, List.flatten_append, List.length_append, hcut,
      ← List.drop_drop, List.drop_left]
    rfl

end WiseKernel.Lib
