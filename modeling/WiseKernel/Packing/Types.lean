import WiseKernel.Lib.Unicode

/-!
# The types a packer handles

Codes for the C++ types `bits_packer` has an overload for, closed under
`std::vector`, `std::map` and the structs the IDL compiler generates, and the
values of each.
-/

namespace WiseKernel.Packing

open WiseKernel.Lib

/-- The types of `DEFINE_PACK` and `DEFINE_UNPACK`. -/
inductive Scalar
  | u8 | u16 | u32 | u64
  | i8 | i16 | i32 | i64
  | float | double
  deriving DecidableEq, Repr

def Scalar.size : Scalar → ℕ
  | .u8 | .i8 => 1
  | .u16 | .i16 => 2
  | .u32 | .i32 | .float => 4
  | .u64 | .i64 | .double => 8

/-- The value of a scalar is its bit pattern. -/
abbrev Scalar.Val (s : Scalar) : Type := BitVec (8 * s.size)

structure Date where
  year : Scalar.i16.Val := 0
  month : Scalar.i16.Val := 0
  day : Scalar.i16.Val := 0
  deriving DecidableEq

structure Timestamp where
  year : Scalar.i16.Val := 0
  month : Scalar.i16.Val := 0
  day : Scalar.i16.Val := 0
  hour : Scalar.i16.Val := 0
  min : Scalar.i16.Val := 0
  sec : Scalar.i16.Val := 0
  fract : Scalar.i32.Val := 0
  deriving DecidableEq

mutual

inductive Ty
  | scalar (s : Scalar)
  | bool
  /-- the enumerations of a program, numbered -/
  | enum (e : ℕ)
  | string
  | wstring
  | date
  | timestamp
  | vector (t : Ty)
  | map (k v : Ty)
  | struct (fs : Fields)

/-- The fields of a generated struct or message, in order. -/
inductive Fields
  | nil
  | cons (t : Ty) (fs : Fields)

end

mutual

/-- The values of a type: an enumerator is its `int32_t`, a string its bytes, a
wide string its UTF-16 code units, a map its entries in iteration order. -/
def Ty.Val : Ty → Type
  | .scalar s => s.Val
  | .bool => Bool
  | .enum _ => Scalar.i32.Val
  | .string => List UInt8
  | .wstring => List UInt16
  | .date => Date
  | .timestamp => Timestamp
  | .vector t => List t.Val
  | .map k v => List (k.Val × v.Val)
  | .struct fs => fs.Val

def Fields.Val : Fields → Type
  | .nil => Unit
  | .cons t fs => t.Val × fs.Val

end

mutual

/-- A value-initialised object, `T()`. -/
def Ty.init : (t : Ty) → t.Val
  | .scalar s => (0 : s.Val)
  | .bool => false
  | .enum _ => (0 : Scalar.i32.Val)
  | .string => []
  | .wstring => []
  | .date => {}
  | .timestamp => {}
  | .vector _ => []
  | .map _ _ => []
  | .struct fs => fs.init

def Fields.init : (fs : Fields) → fs.Val
  | .nil => ()
  | .cons t fs => (t.init, fs.init)

end

mutual

/-- A default-constructed object: strings and containers are empty, and a
plain number holds anything. -/
def Ty.Fresh : (t : Ty) → t.Val → Prop
  | .string, s => s = []
  | .wstring, s => s = []
  | .vector _, vec => vec = []
  | .map _ _, m => m = []
  | .struct fs, v => fs.Fresh v
  | .scalar _, _ | .bool, _ | .enum _, _ | .date, _ | .timestamp, _ => True

def Fields.Fresh : (fs : Fields) → fs.Val → Prop
  | .nil, _ => True
  | .cons t fs, (x, xs) => t.Fresh x ∧ fs.Fresh xs

end

mutual

theorem Ty.fresh_init : (t : Ty) → t.Fresh t.init
  | .string => rfl
  | .wstring => rfl
  | .vector _ => rfl
  | .map _ _ => rfl
  | .struct fs => fs.fresh_init
  | .scalar _ | .bool | .enum _ | .date | .timestamp => trivial

theorem Fields.fresh_init : (fs : Fields) → fs.Fresh fs.init
  | .nil => trivial
  | .cons t fs => ⟨t.fresh_init, fs.fresh_init⟩

end

end WiseKernel.Packing
