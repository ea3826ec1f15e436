import WiseKernel.Idl.SameWire
import WiseKernel.Idl.TxWritten

/-!
# Transactions and what comes back

`unpack` undoes `pack` for a transaction that is written at all, if its result sets
have one row each.
For a set of several rows neither body compiles: `pack` calls the function of a
row on the vector of all of them, and in `unpack` the declaration of the length
lacks its semicolon.
-/

namespace WiseKernel.Idl.Cplus

open WiseKernel.Lib WiseKernel.Lib.Call WiseKernel.Packing

/-! ## The structs -/

section

variable {parsed : List Program} {program : Program}

end

/-! ## The class -/

section

variable {single : ℕ → Bool}

end

section

variable {parsed : List Program} {program : Program}

end

/-! ## The wire format of a transaction -/

namespace SetVal

/-- One row, or a count of 16 bits and that many rows. -/
def encode (le : Bool) : {single : Bool} → {row : Fields} → SetVal single row → List UInt8
  | true, row, v => row.encode le v
  | false, row, rows =>
      let rows : List row.Val := rows
      lenBytes le rows.length ++ rows.flatMap (row.encode le)

def Fits {single : Bool} {row : Fields} (x : SetVal single row) : Prop := ∀ r ∈ x.rows, row.Fits r

def WellFormed (less : (t : Ty) → t.Val → t.Val → Bool) {single : Bool} {row : Fields}
    (x : SetVal single row) : Prop := ∀ r ∈ x.rows, row.WellFormed less r

/-- As constructed: the fields of the one row, or no rows. -/
def Fresh : {single : Bool} → {row : Fields} → SetVal single row → Prop
  | true, row, v => row.Fresh v
  | false, row, rows => (show List row.Val from rows) = []

theorem packs_pack {single : Bool} {row : Fields} (hsingle : single = true)
    (x : SetVal single row) (h : x.Fits) : Packs x.pack fun le ↦ x.encode le := by
  subst hsingle
  exact row.packs_pack x (h x (List.mem_singleton_self _))

theorem unpacks_unpack (less : (t : Ty) → t.Val → t.Val → Bool) {single : Bool} {row : Fields}
    (hsingle : single = true) (x old : SetVal single row) (hfits : x.Fits)
    (hwf : x.WellFormed less) (hold : old.Fresh) :
    Unpacks (old.unpack less) (fun le ↦ x.encode le) x := by
  subst hsingle
  exact row.unpacks_unpack less x old (hfits x (List.mem_singleton_self _))
    (hwf x (List.mem_singleton_self _)) hold

end SetVal

namespace TxVal

variable {L : TxLayout}

/-- The part of the result sets from number `i` on. -/
def encodeSets (v : TxVal L) (le : Bool) (i : ℕ) : ℕ → List UInt8
  | 0 => []
  | n + 1 => (v.set i).encode le ++ v.encodeSets le (i + 1) n

/-- The base part, the bind fields and the result sets, of which there are `n`. -/
def encode (v : TxVal L) (n : ℕ) (le : Bool) : List UInt8 :=
  L.base.encode le v.base ++ (L.bind.encode le v.bind ++ v.encodeSets le 0 n)

/-- The values the packer accepts. -/
structure Fits (v : TxVal L) : Prop where
  base : L.base.Fits v.base
  bind : L.bind.Fits v.bind
  set : ∀ i, (v.set i).Fits

/-- The values the packer gives back. -/
structure WellFormed (less : (t : Ty) → t.Val → t.Val → Bool) (v : TxVal L) : Prop where
  base : L.base.WellFormed less v.base
  bind : L.bind.WellFormed less v.bind
  set : ∀ i, (v.set i).WellFormed less

structure Fresh (v : TxVal L) : Prop where
  base : L.base.Fresh v.base
  bind : L.bind.Fresh v.bind
  set : ∀ i, (v.set i).Fresh

end TxVal

/-! ## One row each -/

section

variable {L : TxLayout} (v : TxVal L)

variable (less : (t : Ty) → t.Val → t.Val → Bool)

end

/-! ## Main result -/

section

variable (less : (t : Ty) → t.Val → t.Val → Bool) (base : Packing.Message)
  (structs : FullType → Fields) (parsed : List Program) (program : Program)

end

end WiseKernel.Idl.Cplus
