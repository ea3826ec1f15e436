import WiseKernel.Lib.Window

/-!
# The growing byte buffer

`resize_buffer` after its first append, observed through `data()`, `size()`
and `get_read_pos()`: the bytes in `[0, pos_)` and the read cursor.  Growing
to a larger block copies these bytes and is not visible here.
-/

namespace WiseKernel.Net

open WiseKernel.Lib

/-- `bytes` are `data()[0 .. pos_)`, `readPos` is `read_pos_`. -/
structure ResizeBuffer where
  bytes : List UInt8
  readPos : ℕ
  deriving DecidableEq, Repr

namespace ResizeBuffer

def size (b : ResizeBuffer) : ℕ := b.bytes.length

/-- `resize_buffer::append`; an empty append changes nothing. -/
def append (b : ResizeBuffer) (p : List UInt8) : ResizeBuffer :=
  { b with bytes := b.bytes ++ p }

/-- `resize_buffer::read`: the result, the bytes copied out and the buffer
after.  On underflow nothing is copied and the cursor stays. -/
def read (b : ResizeBuffer) (len : ℕ) : Bool × List UInt8 × ResizeBuffer :=
  if len = 0 then (true, [], b)
  else if b.size < b.readPos + len then (false, [], b)
  else (true, window b.bytes b.readPos len, { b with readPos := b.readPos + len })

/-- `resize_buffer::rewind`; a position at or past the end has no effect. -/
def rewind (b : ResizeBuffer) (pos : ℕ) : ResizeBuffer :=
  if b.size ≤ pos then b else ⟨b.bytes.take pos, 0⟩

/-- `resize_buffer::pop_front`; `none` is the exception for popping more than
the buffer holds. -/
def popFront (b : ResizeBuffer) (count : ℕ) : Option ResizeBuffer :=
  if count = 0 then some b
  else if b.size < count then none
  else some ⟨b.bytes.drop count, if count ≤ b.readPos then b.readPos - count else 0⟩

@[simp] theorem append_bytes (b : ResizeBuffer) (p : List UInt8) :
    (b.append p).bytes = b.bytes ++ p := rfl

@[simp] theorem append_readPos (b : ResizeBuffer) (p : List UInt8) :
    (b.append p).readPos = b.readPos := rfl

@[simp] theorem read_bytes (b : ResizeBuffer) (len : ℕ) :
    (b.read len).2.2.bytes = b.bytes := by
  unfold read
  split_ifs <;> rfl

theorem read_of_le {b : ResizeBuffer} {len : ℕ} (h : b.readPos + len ≤ b.size) :
    b.read len = (true, window b.bytes b.readPos len,
      { b with readPos := b.readPos + len }) := by
  unfold read
  split_ifs with h0 h1
  · subst h0
    simp [window]
  · omega
  · rfl

theorem readPos_read_le {b : ResizeBuffer} {n : ℕ} (hsize : b.size ≤ n) (h : b.readPos ≤ n)
    (len : ℕ) : (b.read len).2.2.readPos ≤ n := by
  by_cases hle : b.readPos + len ≤ b.size
  · rw [read_of_le hle]
    exact Nat.le_trans hle hsize
  · by_cases h0 : len = 0
    · simpa [read, h0] using h
    · simpa [read, h0, Nat.lt_of_not_le hle] using h

theorem readPos_popFront_le {b b' : ResizeBuffer} {count : ℕ} (h : b.popFront count = some b')
    (hb : b.readPos ≤ b.size) : b'.readPos ≤ b'.size := by
  unfold popFront at h
  split_ifs at h with h0 hlt
  · obtain rfl := Option.some.inj h
    exact hb
  · obtain rfl := Option.some.inj h
    simp only [size, List.length_drop] at hb ⊢
    omega
  · obtain rfl := Option.some.inj h
    exact Nat.zero_le _

theorem read_of_lt {b : ResizeBuffer} {len : ℕ} (h : b.size < b.readPos + len)
    (h0 : len ≠ 0) : b.read len = (false, [], b) := by
  simp [read, h0, h]

end ResizeBuffer

end WiseKernel.Net
