import Mathlib.Algebra.BigOperators.Group.List.Basic
import Mathlib.Algebra.GroupWithZero.Nat
import Mathlib.Data.List.Range
import WiseKernel.Idl.Program

/-!
# The query of a transaction

Three texts are generated for the fields of `tx_bind`: the query, with a
placeholder for every field; the calls of `stmt->bind`, one for every element of
a vector and for every member of a struct; and the parameters of the procedure,
with a comma wherever a call stands before.
-/

namespace WiseKernel.Idl

/-! ## Names -/

/-- `lookup` with two arguments. -/
def SymbolTable.lookupIn (table : SymbolTable) (ns simple : String) : Option Symbol :=
  table.lookup (ns ++ "::" ++ simple)

namespace Cplus

/-! ## The texts -/

/-- `stmt->function( index, arguments );` -/
structure BindCall where
  function : String
  index : ℕ
  arguments : String
  deriving DecidableEq, Repr

/-- What is written into `execute_query`. -/
inductive CppLine
  | bind (call : BindCall)
  /-- the check of the size of a vector -/
  | sizeCheck (name : String) (count : ℤ)
  | line (text : String)
  deriving DecidableEq, Repr

/-- `@name type OUT`; `comma` tells that `, ` stands before it. -/
structure SqlParameter where
  comma : Bool
  name : String
  type : String
  out : Bool
  deriving DecidableEq, Repr

/-- The two streams, and `bind_seq`. -/
structure TxText where
  bindSeq : ℕ := 0
  cpp : List CppLine := []
  sql : List SqlParameter := []
  deriving DecidableEq, Repr

/-- A call and a parameter. -/
def TxText.emit (t : TxText) (function arguments : String) (name type : String) (out : Bool) :
    TxText where
  bindSeq := t.bindSeq + 1
  cpp := t.cpp ++ [.bind ⟨function, t.bindSeq, arguments⟩]
  sql := t.sql ++ [⟨t.bindSeq > 0, name, type, out⟩]

def TxText.write (t : TxText) (line : CppLine) : TxText := { t with cpp := t.cpp ++ [line] }

/-! ## The query -/

section

variable (table : SymbolTable) (program : Program)

/-- The two lookups of `generate_tx_execute_bind_full`. -/
def findStruct (type : FullType) : Except String Symbol :=
  match table.lookup type.getName with
  | some sym => .ok sym
  | none =>
      match getNamespace program.nodes with
      -- `program_->get_namespace()` is null
      | none => .error "undefined"
      | some ns =>
          match table.lookupIn (namespaceString "::" ns) type.getName with
          | some sym => .ok sym
          | none => .error "Tx failed to find a struct name"

end

/-! ## What is counted -/

def CppLine.call? : CppLine → Option BindCall
  | .bind call => some call
  | .sizeCheck _ _ | .line _ => none

/-- The calls, in the order in which they run. -/
def TxText.calls (t : TxText) : List BindCall := t.cpp.filterMap CppLine.call?

section

variable (table : SymbolTable) (program : Program)

end

/-! ## Writing elements -/

/-- Between `t` and `t'`, elements with the next `n` indices are written. -/
structure Emits (t : TxText) (n : ℕ) (t' : TxText) : Prop where
  bindSeq : t'.bindSeq = t.bindSeq + n
  indices : t'.calls.map (·.index) = t.calls.map (·.index) ++ List.range' t.bindSeq n
  commas : t'.sql.map (·.comma) =
    t.sql.map (·.comma) ++ (List.range' t.bindSeq n).map fun i ↦ decide (i > 0)

namespace Emits

theorem refl (t : TxText) : Emits t 0 t := by
  constructor <;> simp

theorem trans {t t' t'' : TxText} {n m : ℕ} (h : Emits t n t') (h' : Emits t' m t'') :
    Emits t (n + m) t'' where
  bindSeq := by rw [h'.bindSeq, h.bindSeq, Nat.add_assoc]
  indices := by
    rw [h'.indices, h.indices, h.bindSeq, List.append_assoc, List.range'_append_1]
  commas := by
    rw [h'.commas, h.commas, h.bindSeq, List.append_assoc, ← List.map_append,
      List.range'_append_1]

theorem emit (t : TxText) (function arguments name type : String) (out : Bool) :
    Emits t 1 (t.emit function arguments name type out) := by
  constructor <;> simp [TxText.emit, TxText.calls, CppLine.call?]

theorem write (t : TxText) {line : CppLine} (hline : line.call? = none) :
    Emits t 0 (t.write line) := by
  constructor <;> simp [TxText.write, TxText.calls, hline]

end Emits

section

variable {table : SymbolTable} {program : Program}

end

/-! ## The query -/

section

variable {table : SymbolTable} {program : Program}

end

end Cplus

end WiseKernel.Idl
