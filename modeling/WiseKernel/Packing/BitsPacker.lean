import WiseKernel.Lib.LittleEndian
import WiseKernel.Lib.Sticky
import WiseKernel.Net.ResizeBuffer
import WiseKernel.Packing.Types
import WiseKernel.Util.Utf8

/-!
# The packer

`bits_packer` writes values to and reads them from a `resize_buffer` and
clears `is_valid_` at the first failure.  Every overload is written with the
control flow of the source: the guard on `is_valid_`, the assignments of
nested results to it, and the early returns.  `unpack` takes the object it is
given and returns what is left in it.
-/

namespace WiseKernel.Packing

open WiseKernel.Lib WiseKernel.Lib.Call WiseKernel.Net

/-- `bits_packer`; `hostLe` is the byte order of the machine it runs on. -/
structure BitsPacker where
  buf : ResizeBuffer
  hostLe : Bool
  isLe : Bool
  isValid : Bool
  deriving DecidableEq

/-- The constructor: `is_le_` is found from the bytes of an `int`. -/
def BitsPacker.new (hostLe : Bool) (buf : ResizeBuffer) : BitsPacker := ⟨buf, hostLe, hostLe, true⟩

instance : Flagged BitsPacker where
  valid := BitsPacker.isValid
  setValid b p := { p with isValid := b }
  valid_setValid _ _ := rfl
  setValid_valid _ := rfl

/-- A copy out of the buffer: where it starts, how many bytes it takes and
`pos_` at that moment. -/
structure Access where
  start : ℕ
  len : ℕ
  pos : ℕ
  deriving DecidableEq, Repr

abbrev PackerCall (α : Type) := Call BitsPacker Access α

def maxContainerSize : ℕ := 8 * 1024

def maxStringSize : ℕ := 2 * 1024

/-! ## Bytes -/

/-- `buf_.append(bytes)`, and the flag is returned. -/
def append (bytes : List UInt8) : PackerCall Unit := fun p ↦
  ⟨p.isValid, (), { p with buf := p.buf.append bytes }, []⟩

/-- `is_valid_ = buf_.read(target, len)`, and the flag is returned; the value
is what was copied. -/
def read (len : ℕ) : PackerCall (List UInt8) := fun p ↦
  let (rc, bytes, buf) := p.buf.read len
  ⟨rc, bytes, { p with buf := buf, isValid := rc },
    if rc = true ∧ len ≠ 0 then [⟨p.buf.readPos, len, p.buf.size⟩] else []⟩

/-- `pack(uint8_t*, std::size_t)`. -/
def packBytes (bytes : List UInt8) : PackerCall Unit := guarded () (append bytes)

/-- `unpack(uint8_t*, std::size_t)`. -/
def unpackBytes (len : ℕ) : PackerCall (List UInt8) := guarded [] (read len)

/-! ## Scalars -/

/-- The bytes of an object in memory. -/
def memory (hostLe : Bool) {s : Scalar} (v : s.Val) : List UInt8 :=
  if hostLe then leBytes s.size v.toNat else (leBytes s.size v.toNat).reverse

/-- The object whose bytes in memory are given. -/
def ofMemory (hostLe : Bool) {s : Scalar} (bytes : List UInt8) : s.Val :=
  BitVec.ofNat _ (leValue (if hostLe then bytes else bytes.reverse))

def swapEndian {s : Scalar} (v : s.Val) : s.Val :=
  BitVec.ofNat _ (leValue (leBytes s.size v.toNat).reverse)

def packScalar {s : Scalar} (v : s.Val) : PackerCall Unit := guarded () fun p ↦
  if p.isLe then append (memory p.hostLe v) p else append (memory p.hostLe (swapEndian v)) p

/-- `DEFINE_UNPACK`.  Where the byte orders agree the object itself is the
target of the read, which does not touch it on underflow. -/
def unpackScalar {s : Scalar} (v : s.Val) : PackerCall s.Val := guarded v fun p ↦
  if p.isLe then
    mapValue (fun ok bytes ↦ if ok then ofMemory p.hostLe bytes else v) (read s.size) p
  else
    mapValue (fun ok bytes ↦ if ok then swapEndian (ofMemory p.hostLe bytes) else v)
      (read s.size) p

/-- A `uint16_t` length. -/
def packLen (len : ℕ) : PackerCall Unit := packScalar (s := .u16) (BitVec.ofNat _ len)

def unpackLen : PackerCall ℕ := mapValue (fun _ len ↦ len.toNat) (unpackScalar (s := .u16) 0)

def packEnum (v : Scalar.i32.Val) : PackerCall Unit :=
  guarded () (assigned (packScalar (s := .i32) v))

def unpackEnum (v : Scalar.i32.Val) : PackerCall Scalar.i32.Val := guarded v
  (check (assigned (unpackScalar (s := .i32) 0)) (fun _ ↦ v) fun val ↦ ret val)

def packBool (b : Bool) : PackerCall Unit :=
  guarded () (assigned (packScalar (s := .u8) (if b then 1 else 0)))

def unpackBool (b : Bool) : PackerCall Bool := guarded b
  (check (assigned (unpackScalar (s := .u8) 0)) (fun _ ↦ b) fun val ↦ ret (decide (0 < val)))

/-! ## Dates -/

def packDate (d : Date) : PackerCall Unit := guarded ()
  (check (packScalar (s := .i16) d.year) id fun _ ↦
    check (packScalar (s := .i16) d.month) id fun _ ↦
      check (packScalar (s := .i16) d.day) id ret)

def unpackDate (d : Date) : PackerCall Date := guarded d
  (check (unpackScalar d.year) (fun x ↦ { d with year := x }) fun year ↦
    check (unpackScalar d.month) (fun x ↦ { d with year, month := x }) fun month ↦
      check (unpackScalar d.day) (fun x ↦ { year, month, day := x }) fun day ↦
        ret { year, month, day })

def packTimestamp (t : Timestamp) : PackerCall Unit := guarded ()
  (check (packScalar (s := .i16) t.year) id fun _ ↦
    check (packScalar (s := .i16) t.month) id fun _ ↦
      check (packScalar (s := .i16) t.day) id fun _ ↦
        check (packScalar (s := .i16) t.hour) id fun _ ↦
          check (packScalar (s := .i16) t.min) id fun _ ↦
            check (packScalar (s := .i16) t.sec) id fun _ ↦
              check (packScalar (s := .i32) t.fract) id ret)

def unpackTimestamp (t : Timestamp) : PackerCall Timestamp := guarded t
  (check (unpackScalar t.year) (fun x ↦ { t with year := x }) fun year ↦
    check (unpackScalar t.month) (fun x ↦ { t with year, month := x }) fun month ↦
      check (unpackScalar t.day) (fun x ↦ { t with year, month, day := x }) fun day ↦
        check (unpackScalar t.hour) (fun x ↦ { t with year, month, day, hour := x }) fun hour ↦
          check (unpackScalar t.min) (fun x ↦ { t with year, month, day, hour, min := x })
            fun min ↦
            check (unpackScalar t.sec)
              (fun x ↦ { t with year, month, day, hour, min, sec := x }) fun sec ↦
              check (unpackScalar t.fract)
                (fun x ↦ { year, month, day, hour, min, sec, fract := x }) fun fract ↦
                ret { year, month, day, hour, min, sec, fract })

/-! ## Strings -/

/-- The characters of a zero-terminated array. -/
def cString (tv : List UInt8) : List UInt8 := tv.takeWhile (· != 0)

def packString (s : List UInt8) : PackerCall Unit := guarded ()
  (if maxStringSize < s.length then fail ()
  else check (assigned (packLen s.length)) id fun _ ↦
    if 0 < s.length then check (assigned (packBytes s)) id ret else ret ())

/-- `unpack(std::string&)`.  The result of reading the length is not looked
at: on underflow the length is still zero. -/
def unpackString (s : List UInt8) : PackerCall (List UInt8) := guarded s
  (ignoring (assigned unpackLen) fun len ↦
    if maxStringSize < len then fail s
    else if 0 < len then
      check (assigned (unpackBytes len)) (fun _ ↦ s) fun tv ↦ ret (cString tv)
    else ret s)

/-! ## Containers -/

section

variable {α β : Type}

/-- The loop of `pack(const std::vector<T>&)`. -/
def packEach (pack : α → PackerCall Unit) : List α → PackerCall Unit
  | [] => ret ()
  | x :: xs => check (assigned (pack x)) id fun _ ↦ packEach pack xs

def packVector (pack : α → PackerCall Unit) (vec : List α) : PackerCall Unit := guarded ()
  (if maxContainerSize < vec.length then fail ()
  else check (assigned (packLen vec.length)) id fun _ ↦ packEach pack vec)

/-- `std::vector<T>::resize`. -/
def resize (vec : List α) (len : ℕ) (init : α) : List α :=
  vec.take len ++ List.replicate (len - vec.length) init

/-- The loop of `unpack(std::vector<T>&)`: every element is read in place. -/
def unpackEach (unpack : α → PackerCall α) : List α → PackerCall (List α)
  | [] => ret []
  | x :: xs => check (assigned (unpack x)) (· :: xs) fun y ↦
      mapValue (fun _ ys ↦ y :: ys) (unpackEach unpack xs)

def unpackVector (unpack : α → PackerCall α) (init : α) (vec : List α) :
    PackerCall (List α) := guarded vec
  (check (assigned unpackLen) (fun _ ↦ vec) fun len ↦
    if maxContainerSize < len then fail vec
    else unpackEach unpack (resize vec len init))

/-- The loop of `pack(const std::map<T1, T2>&)`. -/
def packPairs (packKey : α → PackerCall Unit) (packValue : β → PackerCall Unit) :
    List (α × β) → PackerCall Unit
  | [] => ret ()
  | (key, value) :: m =>
      check (assigned (packKey key)) id fun _ ↦
        check (assigned (packValue value)) id fun _ ↦ packPairs packKey packValue m

def packMap (packKey : α → PackerCall Unit) (packValue : β → PackerCall Unit)
    (m : List (α × β)) : PackerCall Unit := guarded ()
  (if maxContainerSize < m.length then fail ()
  else check (assigned (packLen m.length)) id fun _ ↦ packPairs packKey packValue m)

/-- `std::map::emplace` over the entries in order: whether the key was new,
and the entries after. -/
def emplace (less : α → α → Bool) (key : α) (value : β) :
    List (α × β) → Bool × List (α × β)
  | [] => (true, [(key, value)])
  | (k, v) :: m =>
      if less k key then ((emplace less key value m).1, (k, v) :: (emplace less key value m).2)
      else if less key k then (true, (key, value) :: (k, v) :: m)
      else (false, (k, v) :: m)

/-- The loop of `unpack(std::map<T1, T2>&)` for the given number of entries. -/
def unpackPairs (less : α → α → Bool) (unpackKey : PackerCall α) (unpackValue : PackerCall β) :
    ℕ → List (α × β) → PackerCall (List (α × β))
  | 0, m => ret m
  | n + 1, m =>
      check (assigned unpackKey) (fun _ ↦ m) fun key ↦
        check (assigned unpackValue) (fun _ ↦ m) fun value ↦
          check (assigned fun p ↦
            ⟨(emplace less key value m).1, (emplace less key value m).2, p, []⟩)
            id fun m ↦ unpackPairs less unpackKey unpackValue n m

/-- `unpack(std::map<T1, T2>&)`; the entries already there stay. -/
def unpackMap (less : α → α → Bool) (unpackKey : PackerCall α) (unpackValue : PackerCall β)
    (m : List (α × β)) : PackerCall (List (α × β)) := guarded m
  (check (assigned unpackLen) (fun _ ↦ m) fun len ↦
    if maxContainerSize < len then fail m
    else unpackPairs less unpackKey unpackValue len m)

end

/-! ## Wide strings -/

/-- `convert(const std::wstring&, std::vector<uint8_t>&)`. -/
def convert16 (src : List UInt16) (out : List UInt8) : PackerCall (List UInt8) :=
  let c := Utf8.utf16to8 src
  if c.thrown = none then ret (out ++ c.out) else fail (out ++ c.out)

/-- `convert(const std::vector<uint8_t>&, std::wstring&)`. -/
def convert8 (src : List UInt8) (out : List UInt16) : PackerCall (List UInt16) :=
  let c := Utf8.utf8to16 src
  if c.thrown = none then ret (out ++ c.out) else fail (out ++ c.out)

def packOctet (b : UInt8) : PackerCall Unit := packScalar (s := .u8) b.toBitVec

def unpackOctet (b : UInt8) : PackerCall UInt8 :=
  mapValue (fun _ v ↦ UInt8.ofBitVec v) (unpackScalar (s := .u8) b.toBitVec)

def packWstring (s : List UInt16) : PackerCall Unit := guarded ()
  (if maxStringSize < s.length then fail ()
  else check (assigned (convert16 s [])) (fun _ ↦ ()) fun u8s ↦ packVector packOctet u8s)

/-- `unpack(std::wstring&)`; the characters read go behind those already
there. -/
def unpackWstring (s : List UInt16) : PackerCall (List UInt16) := guarded s
  (check (assigned (unpackVector unpackOctet 0 [])) (fun _ ↦ s) fun u8s ↦
    check (assigned (convert8 u8s s)) id fun s ↦
      if maxStringSize < s.length then fail s else ret s)

/-! ## All types -/

mutual

/-- The function that writes a value: an overload of `pack`, and `pack_enum` for
an enumeration. -/
def Ty.pack : (t : Ty) → t.Val → PackerCall Unit
  | .scalar _, v => packScalar v
  | .bool, v => packBool v
  | .enum _, v => packEnum v
  | .string, v => packString v
  | .wstring, v => packWstring v
  | .date, v => packDate v
  | .timestamp, v => packTimestamp v
  | .vector t, v => packVector (fun x ↦ t.pack x) v
  | .map k v, m => packMap (fun x ↦ k.pack x) (fun x ↦ v.pack x) m
  | .struct fs, v => guarded () (fs.pack v)

/-- The body the generator writes: every field, and the flag is returned. -/
def Fields.pack : (fs : Fields) → fs.Val → PackerCall Unit
  | .nil, _ => ret ()
  | .cons t fs, (x, xs) => ignoring (t.pack x) fun _ ↦ fs.pack xs

end

section

-- `std::less` of the key types
variable (less : (t : Ty) → t.Val → t.Val → Bool)

mutual

/-- The function that reads a value. -/
def Ty.unpack : (t : Ty) → t.Val → PackerCall t.Val
  | .scalar _, v => unpackScalar v
  | .bool, v => unpackBool v
  | .enum _, v => unpackEnum v
  | .string, v => unpackString v
  | .wstring, v => unpackWstring v
  | .date, v => unpackDate v
  | .timestamp, v => unpackTimestamp v
  | .vector t, v => unpackVector (fun x ↦ t.unpack x) t.init v
  | .map k v, m => unpackMap (less k) (k.unpack k.init) (v.unpack v.init) m
  | .struct fs, v => guarded v (fs.unpack v)

/-- The body the generator writes. -/
def Fields.unpack : (fs : Fields) → fs.Val → PackerCall fs.Val
  | .nil, v => ret v
  | .cons t fs, (x, xs) => ignoring (t.unpack x) fun y ↦
      mapValue (fun _ ys ↦ (y, ys)) (fs.unpack xs)

end

end

/-! ## Overload resolution

The loops over containers call `pack` and `unpack` for what they find.  For an
enumeration both fall to the template for `ipackable`, which it is not, and an
element of a `std::vector<bool>` is no `bool&`.
-/

def Ty.isEnum : Ty → Bool
  | .enum _ => true
  | _ => false

def Ty.isBool : Ty → Bool
  | .bool => true
  | _ => false

mutual

/-- Whether the calls in the function that writes a value have an overload. -/
def Ty.packCompiles : Ty → Bool
  | .vector t => !t.isEnum && t.packCompiles
  | .map k v => (!k.isEnum && k.packCompiles) && (!v.isEnum && v.packCompiles)
  | .struct fs => fs.packCompiles
  | .scalar _ | .bool | .enum _ | .string | .wstring | .date | .timestamp => true

def Fields.packCompiles : Fields → Bool
  | .nil => true
  | .cons t fs => t.packCompiles && fs.packCompiles

end

mutual

/-- Whether the calls in the function that reads a value have an overload; the
keys and values of a map are read into variables. -/
def Ty.unpackCompiles : Ty → Bool
  | .vector t => !t.isEnum && !t.isBool && t.unpackCompiles
  | .map k v => (!k.isEnum && k.unpackCompiles) && (!v.isEnum && v.unpackCompiles)
  | .struct fs => fs.unpackCompiles
  | .scalar _ | .bool | .enum _ | .string | .wstring | .date | .timestamp => true

def Fields.unpackCompiles : Fields → Bool
  | .nil => true
  | .cons t fs => t.unpackCompiles && fs.unpackCompiles

end

/-- The function for a type, if there is one. -/
def Ty.packFunction (t : Ty) : Option (t.Val → PackerCall Unit) :=
  if t.packCompiles then some t.pack else none

def Ty.unpackFunction (less : (t : Ty) → t.Val → t.Val → Bool) (t : Ty) :
    Option (t.Val → PackerCall t.Val) :=
  if t.unpackCompiles then some (t.unpack less) else none

mutual

/-- What can be read can be written. -/
theorem Ty.packCompiles_of_unpackCompiles : (t : Ty) → t.unpackCompiles = true →
    t.packCompiles = true
  | .vector t, h => by
      rw [Ty.unpackCompiles, Bool.and_eq_true, Bool.and_eq_true] at h
      rw [Ty.packCompiles, Bool.and_eq_true]
      exact ⟨h.1.1, t.packCompiles_of_unpackCompiles h.2⟩
  | .map k v, h => by
      simp only [Ty.unpackCompiles, Bool.and_eq_true] at h
      simp only [Ty.packCompiles, Bool.and_eq_true]
      exact ⟨⟨h.1.1, k.packCompiles_of_unpackCompiles h.1.2⟩,
        h.2.1, v.packCompiles_of_unpackCompiles h.2.2⟩
  | .struct fs, h => fs.packCompiles_of_unpackCompiles h
  | .scalar _, _ | .bool, _ | .enum _, _ | .string, _ | .wstring, _ | .date, _ | .timestamp, _ =>
      rfl

theorem Fields.packCompiles_of_unpackCompiles : (fs : Fields) → fs.unpackCompiles = true →
    fs.packCompiles = true
  | .nil, _ => rfl
  | .cons t fs, h => by
      rw [Fields.unpackCompiles, Bool.and_eq_true] at h
      rw [Fields.packCompiles, Bool.and_eq_true]
      exact ⟨t.packCompiles_of_unpackCompiles h.1, fs.packCompiles_of_unpackCompiles h.2⟩

end

end WiseKernel.Packing
