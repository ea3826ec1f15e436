import Mathlib.Data.List.Basic
import Mathlib.Tactic.Common

/-!
# Windows of a list

Code that works on a byte buffer through a base pointer reads and overwrites a
run of consecutive elements.  `window` is such a read and `overwrite` such a
write; both are stated for lists cut at known places, so that a proof names
the pieces of a buffer instead of computing with indices.
-/

namespace WiseKernel.Lib

variable {α : Type*}

/-- The `len` elements from position `pos` on. -/
def window (xs : List α) (pos len : ℕ) : List α :=
  (xs.drop pos).take len

/-- Replace the elements from position `pos` on by `ys`. -/
def overwrite (xs : List α) (pos : ℕ) (ys : List α) : List α :=
  xs.take pos ++ ys ++ xs.drop (pos + ys.length)

theorem window_append (pre mid post : List α) {pos len : ℕ}
    (hpos : pos = pre.length) (hlen : len = mid.length) :
    window (pre ++ mid ++ post) pos len = mid := by
  subst hpos hlen
  simp [window, List.append_assoc]

theorem overwrite_append (pre old new post : List α) {pos : ℕ}
    (hpos : pos = pre.length) (hlen : old.length = new.length) :
    overwrite (pre ++ old ++ post) pos new = pre ++ new ++ post := by
  subst hpos
  simp [overwrite, List.append_assoc, ← hlen]

theorem length_window {xs : List α} {pos len : ℕ} (h : pos + len ≤ xs.length) :
    (window xs pos len).length = len := by
  simp only [window, List.length_take, List.length_drop]
  omega

theorem length_overwrite {xs ys : List α} {pos : ℕ} (h : pos + ys.length ≤ xs.length) :
    (overwrite xs pos ys).length = xs.length := by
  simp only [overwrite, List.length_append, List.length_take, List.length_drop]
  omega

theorem overwrite_overwrite {xs : List α} {pos : ℕ} (h : pos ≤ xs.length) (ys zs : List α) :
    overwrite (overwrite xs pos ys) (pos + ys.length) zs = overwrite xs pos (ys ++ zs) := by
  have hpre : (xs.take pos ++ ys).length = pos + ys.length := by
    rw [List.length_append, List.length_take, Nat.min_eq_left h]
  rw [overwrite, overwrite, overwrite, ← hpre, List.take_left, ← List.drop_drop, List.drop_left,
    hpre, List.drop_drop, List.length_append]
  simp only [List.append_assoc, Nat.add_assoc]

end WiseKernel.Lib
