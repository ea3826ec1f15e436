import Mathlib.Algebra.Order.Ring.Int

/-!
# Sums and differences

The grammar of additive expressions over signed operands, with the values that
it gives: signs bind to an operand, and the operators associate to the left.
-/

namespace WiseKernel.SignedSum

variable {α : Type*} {value : α → Option ℤ}

inductive Token (α : Type*)
  | plus
  | minus
  | operand (a : α)
  deriving DecidableEq, Repr

/-- An operand behind any number of signs. -/
inductive Unary (value : α → Option ℤ) : List (Token α) → ℤ → Prop
  | operand {a : α} {v : ℤ} : value a = some v → Unary value [.operand a] v
  | plus {ts : List (Token α)} {v : ℤ} : Unary value ts v → Unary value (.plus :: ts) v
  | minus {ts : List (Token α)} {v : ℤ} : Unary value ts v → Unary value (.minus :: ts) (-v)

inductive Sum (value : α → Option ℤ) : List (Token α) → ℤ → Prop
  | unary {ts : List (Token α)} {v : ℤ} : Unary value ts v → Sum value ts v
  | plus {ts us : List (Token α)} {v w : ℤ} :
      Sum value ts v → Unary value us w → Sum value (ts ++ .plus :: us) (v + w)
  | minus {ts us : List (Token α)} {v w : ℤ} :
      Sum value ts v → Unary value us w → Sum value (ts ++ .minus :: us) (v - w)

/-! ## Reading from left to right -/

/-- The sum so far, and the sign of the operand that is awaited, if one is. -/
def read (value : α → Option ℤ) : ℤ → Option ℤ → List (Token α) → Option ℤ
  | acc, none, [] => some acc
  | acc, none, .plus :: ts => read value acc (some 1) ts
  | acc, none, .minus :: ts => read value acc (some (-1)) ts
  | _, none, .operand _ :: _ => none
  | _, some _, [] => none
  | acc, some s, .plus :: ts => read value acc (some s) ts
  | acc, some s, .minus :: ts => read value acc (some (-s)) ts
  | acc, some s, .operand a :: ts =>
      match value a with
      | some v => read value (acc + s * v) none ts
      | none => none

theorem Unary.read_append {ts : List (Token α)} {v : ℤ} (h : Unary value ts v) (acc s : ℤ)
    (rest : List (Token α)) :
    read value acc (some s) (ts ++ rest) = read value (acc + s * v) none rest := by
  induction h generalizing s with
  | operand ha => simp only [List.singleton_append, read, ha]
  | plus _ ih => exact ih s
  | minus _ ih =>
      have hsign := ih (-s)
      rw [neg_mul_comm] at hsign
      exact hsign

theorem Sum.read_append {ts : List (Token α)} {v : ℤ} (h : Sum value ts v)
    (rest : List (Token α)) : read value 0 (some 1) (ts ++ rest) = read value v none rest := by
  induction h generalizing rest with
  | unary h =>
      rw [h.read_append, Int.zero_add, Int.one_mul]
  | plus _ hu ih =>
      rw [List.append_assoc, ih, List.cons_append, read, hu.read_append, Int.one_mul]
  | minus _ hu ih =>
      rw [List.append_assoc, ih, List.cons_append, read, hu.read_append, Int.neg_one_mul,
        ← Int.sub_eq_add_neg]

/-- The grammar gives no text two values. -/
theorem Sum.unique {ts : List (Token α)} {v w : ℤ} (hv : Sum value ts v) (hw : Sum value ts w) :
    v = w := by
  have hread := hv.read_append []
  rw [hw.read_append] at hread
  exact (Option.some.inj hread).symm

end WiseKernel.SignedSum
