import Mathlib.Logic.Function.Basic
import WiseKernel.Lib.LittleEndian
import WiseKernel.Lib.Window
import WiseKernel.Packing.Types

/-!
# The client's packer

`Packer.cs` and `Date.cs`: the overloads of `Pack` and `Unpack` of the C#
client over a `MemoryStream`, each under the name of its type, so that
`packInt` is `Pack(Stream, int)`.  The arrays `Unpack` reads into belong to the
packer, and `Stream.Read` may fill only a part of them; the arrays `Pack`
writes from are filled before every use and need no state.
-/

namespace WiseKernel.Client

open WiseKernel.Lib WiseKernel.Packing

/-! ## Streams -/

@[ext]
structure MemoryStream where
  bytes : List UInt8
  position : ℕ
  inside : position ≤ bytes.length

namespace MemoryStream

/-- `Write(buf, 0, buf.Length)`: over what stands at the position, then past
the end. -/
def write (s : MemoryStream) (buf : List UInt8) : MemoryStream where
  bytes := overwrite s.bytes s.position buf
  position := s.position + buf.length
  inside := by
    have h := s.inside
    simp only [overwrite, List.length_append, List.length_take, List.length_drop]
    omega

def advance (s : MemoryStream) (len : ℕ) : MemoryStream where
  bytes := s.bytes
  position := min (s.position + len) s.bytes.length
  inside := Nat.min_le_right _ _

/-- `Read(buf, 0, len)`: the bytes available, at most `len` of them. -/
def read (s : MemoryStream) (len : ℕ) : List UInt8 × MemoryStream :=
  (window s.bytes s.position len, s.advance len)

end MemoryStream

/-! ## The base class library -/

/-- `BitConverter.GetBytes(float)` on a little-endian machine. -/
def getBytes (d : Scalar.float.Val) : List UInt8 := leBytes 4 d.toNat

/-- `BitConverter.ToSingle(buf, 0)` on a little-endian machine. -/
def toSingle (buf : List UInt8) : Scalar.float.Val := BitVec.ofNat _ (leValue (buf.take 4))

/-- `Encoding.UTF8`, of which only its effect on well-formed text is used. -/
structure Utf8Encoding where
  getBytes : List UInt16 → List UInt8
  getString : List UInt8 → List UInt16
  getBytes_utf16 : ∀ cs, getBytes (utf16 cs) = utf8 cs
  getString_utf8 : ∀ cs, getString (utf8 cs) = utf16 cs

/-! ## Pack -/

def packAll (buf : List UInt8) (s : MemoryStream) : MemoryStream := s.write buf

/-- `(byte)(0xff & (x >> k))` of a signed number. -/
def signedByte {w : ℕ} (x : BitVec w) (k : ℕ) : UInt8 :=
  UInt8.ofBitVec ((0xff#w &&& x.sshiftRight k).setWidth 8)

/-- `(byte)(0xff & (x >> k))` of an unsigned number. -/
def unsignedByte {w : ℕ} (x : BitVec w) (k : ℕ) : UInt8 :=
  UInt8.ofBitVec ((0xff#w &&& x >>> k).setWidth 8)

def packSByte (b : Scalar.i8.Val) : MemoryStream → MemoryStream := packAll [UInt8.ofBitVec b]

def packByte (b : Scalar.u8.Val) : MemoryStream → MemoryStream := packAll [UInt8.ofBitVec b]

def packBool (b : Bool) : MemoryStream → MemoryStream := packSByte (if b then 1 else 0)

/-- `PackShort(Stream, short)`; the operand is an `int`. -/
def packShort (s : Scalar.i16.Val) : MemoryStream → MemoryStream :=
  let x : BitVec 32 := s.signExtend 32
  packAll [signedByte x 0, signedByte x 8]

/-- `PackShort(Stream, ushort)`; the operand is an `int`. -/
def packUShort (s : Scalar.u16.Val) : MemoryStream → MemoryStream :=
  let x : BitVec 32 := s.setWidth 32
  packAll [signedByte x 0, signedByte x 8]

def packInt (x : Scalar.i32.Val) : MemoryStream → MemoryStream :=
  packAll [signedByte x 0, signedByte x 8, signedByte x 16, signedByte x 24]

def packUInt (x : Scalar.u32.Val) : MemoryStream → MemoryStream :=
  packAll [unsignedByte x 0, unsignedByte x 8, unsignedByte x 16, unsignedByte x 24]

def packLong (x : Scalar.i64.Val) : MemoryStream → MemoryStream :=
  packAll [signedByte x 0, signedByte x 8, signedByte x 16, signedByte x 24, signedByte x 32,
    signedByte x 40, signedByte x 48, signedByte x 56]

def packULong (x : Scalar.u64.Val) : MemoryStream → MemoryStream :=
  packAll [unsignedByte x 0, unsignedByte x 8, unsignedByte x 16, unsignedByte x 24,
    unsignedByte x 32, unsignedByte x 40, unsignedByte x 48, unsignedByte x 56]

def packFloat (d : Scalar.float.Val) (s : MemoryStream) : MemoryStream :=
  let bytes (i : ℕ) : Scalar.i8.Val := ((getBytes d).getD i 0).toBitVec
  s |> packSByte (bytes 0) |> packSByte (bytes 1) |> packSByte (bytes 2) |> packSByte (bytes 3)

def packDouble (d : Scalar.double.Val) : MemoryStream → MemoryStream := packLong d

def packScalar : (s : Scalar) → s.Val → MemoryStream → MemoryStream
  | .u8, v => packByte v
  | .u16, v => packUShort v
  | .u32, v => packUInt v
  | .u64, v => packULong v
  | .i8, v => packSByte v
  | .i16, v => packShort v
  | .i32, v => packInt v
  | .i64, v => packLong v
  | .float, v => packFloat v
  | .double, v => packDouble v

def packEnum (v : Scalar.i32.Val) : MemoryStream → MemoryStream := packInt v

def packString (E : Utf8Encoding) (s : List UInt16) (stream : MemoryStream) : MemoryStream :=
  let sb := E.getBytes s
  stream |> packUShort (BitVec.ofNat _ sb.length) |> packAll sb

def packDate (d : Date) (s : MemoryStream) : MemoryStream :=
  s |> packShort d.year |> packShort d.month |> packShort d.day

def packTimestamp (t : Timestamp) (s : MemoryStream) : MemoryStream :=
  s |> packShort t.year |> packShort t.month |> packShort t.day |> packShort t.hour
    |> packShort t.min |> packShort t.sec |> packInt t.fract

def packEach {α : Type} (pack : α → MemoryStream → MemoryStream) :
    List α → MemoryStream → MemoryStream
  | [], s => s
  | v :: lst, s => packEach pack lst (pack v s)

/-- `Pack(Stream, List<T>)`, with the call its loop makes. -/
def packList {α : Type} (pack : α → MemoryStream → MemoryStream) (lst : List α)
    (s : MemoryStream) : MemoryStream :=
  s |> packUShort (BitVec.ofNat _ lst.length) |> packEach pack lst

/-! ## Unpack -/

/-- The arrays `bin`, `i16in`, `i32in` and `i64in`. -/
inductive Scratch
  | bin
  | i16in
  | i32in
  | i64in
  deriving DecidableEq

/-- A packer in the middle of reading a stream. -/
structure Reader where
  scratch : Scratch → List UInt8
  stream : MemoryStream

/-- The exception `UnpackEnum` throws. -/
inductive Thrown
  | argumentOutOfRange
  deriving DecidableEq, Repr

abbrev Unpacking (α : Type) := StateT Reader (Except Thrown) α

/-- `UnpackAll` into an array of the packer; the number of bytes read is
dropped, and what was not read stays as it was. -/
def unpackAll (b : Scratch) (len : ℕ) : Unpacking (List UInt8) := fun r ↦
  let buf := overwrite (r.scratch b) 0 (r.stream.read len).1
  .ok (buf, ⟨Function.update r.scratch b buf, (r.stream.read len).2⟩)

/-- `UnpackAll` into a new array. -/
def unpackNew (len : ℕ) : Unpacking (List UInt8) := fun r ↦
  .ok (overwrite (List.replicate len 0) 0 (r.stream.read len).1,
    { r with stream := (r.stream.read len).2 })

/-- `(buf[i] & 0xff) << k` in a type of the given width. -/
def placed (w : ℕ) (buf : List UInt8) (i k : ℕ) : BitVec w :=
  ((buf.getD i 0).toBitVec.setWidth w &&& 0xff#w) <<< k

def unpackSByte : Unpacking Scalar.i8.Val := do
  let buf ← unpackAll .bin 1
  return (buf.getD 0 0).toBitVec

def unpackByte : Unpacking Scalar.u8.Val := unpackSByte

def unpackBool : Unpacking Bool := do
  let sv ← unpackSByte
  return sv != 0

def unpackShort : Unpacking Scalar.i16.Val := do
  let buf ← unpackAll .i16in 2
  return (placed 32 buf 1 8 ||| placed 32 buf 0 0).setWidth _

def unpackUShort : Unpacking Scalar.u16.Val := unpackShort

def unpackInt : Unpacking Scalar.i32.Val := do
  let buf ← unpackAll .i32in 4
  return placed 32 buf 3 24 ||| placed 32 buf 2 16 ||| placed 32 buf 1 8 ||| placed 32 buf 0 0

def unpackUInt : Unpacking Scalar.u32.Val := unpackInt

def unpackLong : Unpacking Scalar.i64.Val := do
  let buf ← unpackAll .i64in 8
  return placed 64 buf 7 56 ||| placed 64 buf 6 48 ||| placed 64 buf 5 40 |||
    placed 64 buf 4 32 ||| placed 64 buf 3 24 ||| placed 64 buf 2 16 ||| placed 64 buf 1 8 |||
      placed 64 buf 0 0

def unpackULong : Unpacking Scalar.u64.Val := unpackLong

def unpackFloat : Unpacking Scalar.float.Val := do
  let buf ← unpackAll .i32in 4
  return toSingle buf

def unpackDouble : Unpacking Scalar.double.Val := unpackLong

def unpackScalar : (s : Scalar) → Unpacking s.Val
  | .u8 => unpackByte
  | .u16 => unpackUShort
  | .u32 => unpackUInt
  | .u64 => unpackULong
  | .i8 => unpackSByte
  | .i16 => unpackShort
  | .i32 => unpackInt
  | .i64 => unpackLong
  | .float => unpackFloat
  | .double => unpackDouble

def unpackString (E : Utf8Encoding) : Unpacking (List UInt16) := do
  let len ← unpackUShort
  if len = 0 then return []
  else
    let sb ← unpackNew len.toNat
    return E.getString sb

/-- `UnpackEnum`; `isDefined` is `Enum.IsDefined` of the enumeration. -/
def unpackEnum (isDefined : Scalar.i32.Val → Bool) : Unpacking Scalar.i32.Val := do
  let v ← unpackInt
  if isDefined v then return v else throw .argumentOutOfRange

def unpackDate : Unpacking Date := do
  let year ← unpackShort
  let month ← unpackShort
  let day ← unpackShort
  return { year, month, day }

def unpackTimestamp : Unpacking Timestamp := do
  let year ← unpackShort
  let month ← unpackShort
  let day ← unpackShort
  let hour ← unpackShort
  let min ← unpackShort
  let sec ← unpackShort
  let fract ← unpackInt
  return { year, month, day, hour, min, sec, fract }

def unpackEach {α : Type} (unpack : Unpacking α) : ℕ → List α → Unpacking (List α)
  | 0, lst => return lst
  | n + 1, lst => do
      let v ← unpack
      unpackEach unpack n (lst ++ [v])

/-- `Unpack(Stream, List<T>)`, with the call its loop makes; the list is added
to. -/
def unpackList {α : Type} (unpack : Unpacking α) (lst : List α) : Unpacking (List α) := do
  let len ← unpackUShort
  unpackEach unpack len.toNat lst

/-! ## Types -/

mutual

/-- The C# type of an IDL type; both kinds of string are `string`, and there
is no map. -/
def Val : Ty → Type
  | .scalar s => s.Val
  | .bool => Bool
  | .enum _ => Scalar.i32.Val
  | .string => List UInt16
  | .wstring => List UInt16
  | .date => Date
  | .timestamp => Timestamp
  | .vector t => List (Val t)
  | .map _ _ => Empty
  | .struct fs => Vals fs

def Vals : Fields → Type
  | .nil => Unit
  | .cons t fs => Val t × Vals fs

end

/-- The types with a `List<T>` overload. -/
def isElement : Ty → Bool
  | .enum _ | .vector _ | .map _ _ => false
  | _ => true

mutual

/-- The types the client has overloads for. -/
def isSupported : Ty → Bool
  | .map _ _ => false
  | .vector t => isElement t && isSupported t
  | .struct fs => isSupportedFields fs
  | _ => true

def isSupportedFields : Fields → Bool
  | .nil => true
  | .cons t fs => isSupported t && isSupportedFields fs

end

theorem isSupported_of_vector {t : Ty} (h : isSupported (.vector t) = true) :
    isSupported t = true := by
  rw [isSupported, Bool.and_eq_true] at h
  exact h.2

theorem isSupported_of_cons {t : Ty} {fs : Fields} (h : isSupportedFields (.cons t fs) = true) :
    isSupported t = true ∧ isSupportedFields fs = true := by
  rwa [isSupportedFields, Bool.and_eq_true] at h

section

variable (E : Utf8Encoding) (isDefined : ℕ → Scalar.i32.Val → Bool)

mutual

/-- `Pack`, `PackShort` or `PackEnum`, as the IDL compiler writes the call. -/
def pack : (t : Ty) → Val t → MemoryStream → MemoryStream
  | .scalar s, v => packScalar s v
  | .bool, v => packBool v
  | .enum _, v => packEnum v
  | .string, v => packString E v
  | .wstring, v => packString E v
  | .date, v => packDate v
  | .timestamp, v => packTimestamp v
  | .vector t, v => packList (fun x ↦ pack t x) v
  | .map _ _, v => nomatch (show Empty from v)
  | .struct fs, v => packFields fs v

def packFields : (fs : Fields) → Vals fs → MemoryStream → MemoryStream
  | .nil, _, s => s
  | .cons t fs, (x, xs), s => packFields fs xs (pack t x s)

end

mutual

/-- `Unpack`, `UnpackShort` or `UnpackEnum`, into a new variable or an empty
list. -/
def unpack : (t : Ty) → isSupported t = true → Unpacking (Val t)
  | .scalar s, _ => unpackScalar s
  | .bool, _ => unpackBool
  | .enum e, _ => unpackEnum (isDefined e)
  | .string, _ => unpackString E
  | .wstring, _ => unpackString E
  | .date, _ => unpackDate
  | .timestamp, _ => unpackTimestamp
  | .vector t, h => unpackList (unpack t (isSupported_of_vector h)) []
  | .map _ _, h => nomatch h
  | .struct fs, h => unpackFields fs h

def unpackFields : (fs : Fields) → isSupportedFields fs = true → Unpacking (Vals fs)
  | .nil, _ => return ()
  | .cons t fs, h => do
      let x ← unpack t (isSupported_of_cons h).1
      let xs ← unpackFields fs (isSupported_of_cons h).2
      return (x, xs)

end

end

end WiseKernel.Client
