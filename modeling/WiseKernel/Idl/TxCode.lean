import Mathlib.Logic.Function.Basic
import WiseKernel.Idl.Cplus
import WiseKernel.Idl.TxQuery
import WiseKernel.Packing.Generated

/-!
# What the C++ generator writes for a transaction

The functions `pack` and `unpack` of the class, of its `bind_t` and of the
struct of every result set.  The text for a result set of several rows has a
declaration and a loop of its own, so these bodies are kept as the statements
they are made of; a compiler checks them before they run.  They stand behind the
query, which the generator refuses to write for many a field.
-/

namespace WiseKernel.Idl

open WiseKernel.Lib WiseKernel.Lib.Call WiseKernel.Packing

namespace Cplus

/-! ## The structs -/

section

variable (table : SymbolTable) (program : Program)

/-- A struct with the bodies of its functions. -/
structure TxStruct where
  members : List Field
  pack : List Stmt
  unpack : List Stmt

/-- A variable with a function to call: `rs_1`, `rs_2` and so on, numbered from
zero here, and the `rs` a loop declares. -/
inductive TxVar
  | set (i : ℕ)
  | row
  deriving DecidableEq, Repr

inductive TxStmt
  /-- `wise::kernel::tx::pack(packer);` -/
  | base
  /-- `bind.pack(packer);` -/
  | bind
  /-- `x.pack(packer);` -/
  | call (x : TxVar)
  /-- `uint16_t len = rs_i.size();`, or `= 0` without a set; the semicolon may
  be missing -/
  | declareLen (size : Option ℕ) (semicolon : Bool)
  /-- `packer.pack(len);` -/
  | len
  /-- `for ( auto& rs : rs_i) { x.pack(packer); }` -/
  | forRows (i : ℕ) (x : TxVar)
  /-- `for ( uint16_t i=0; i < len; ++i) { rs_i_t rs; rs.unpack(packer); rs_i.push_back(rs); }` -/
  | forLen (i : ℕ)
  /-- `return packer.is_valid();` -/
  | isValid
  deriving DecidableEq, Repr

/-- The functions of a transaction. -/
structure TxCode where
  bind : TxStruct
  sets : List (Bool × TxStruct)
  pack : List TxStmt
  unpack : List TxStmt

end

section

variable (single : ℕ → Bool)

end

/-- Whether the set of a number has one row; there is nothing behind the last. -/
def TxCode.single (code : TxCode) (i : ℕ) : Bool := (code.sets[i]?.map Prod.fst).getD true

section

variable (table : SymbolTable) (program : Program) (structs : FullType → Fields)

end

/-- The types of a transaction: the class it derives from, `bind_t`, and for
every result set its row and whether there is exactly one. -/
structure TxLayout where
  base : Packing.Message
  bind : Fields
  single : ℕ → Bool
  row : ℕ → Fields

def SetVal (single : Bool) (row : Fields) : Type :=
  match single with
  | true => row.Val
  | false => List row.Val

@[ext]
structure TxVal (L : TxLayout) where
  base : L.base.Val
  bind : L.bind.Val
  set : (i : ℕ) → SetVal (L.single i) (L.row i)

/-! ## Running the bodies -/

def SetVal.rows : {single : Bool} → {row : Fields} → SetVal single row → List row.Val
  | true, _, v => [v]
  | false, _, rows => rows

/-- `rs_i.pack(packer);`, for the sets that have the function. -/
def SetVal.pack : {single : Bool} → {row : Fields} → SetVal single row → PackerCall Unit
  | true, row, v => row.pack v
  | false, _, _ => ret ()

def packAll : List (PackerCall Unit) → PackerCall Unit
  | [] => ret ()
  | c :: cs => ignoring c fun _ ↦ packAll cs

section

variable {L : TxLayout}

end

section

variable (less : (t : Ty) → t.Val → t.Val → Bool)

def SetVal.unpack : {single : Bool} → {row : Fields} → SetVal single row →
    PackerCall (SetVal single row)
  | true, row, v => row.unpack less v
  | false, _, rows => ret rows

variable {L : TxLayout}

def TxVal.update (v : TxVal L) (i : ℕ) (x : SetVal (L.single i) (L.row i)) : TxVal L :=
  { v with set := Function.update v.set i x }

end

end Cplus

end WiseKernel.Idl
