import WiseKernel.Net.RawBuffer

/-!
# Changing the size of a buffer

`resize_buffer::resize` asks `reserve` for what is missing to the capacity, but
`reserve` counts from the position, and a shrunk buffer keeps its read cursor.
The state it leaves is valid under a condition on the state it finds, and
histories are valid exactly as long as every `resize` meets it.
-/

namespace WiseKernel.Net

open WiseKernel.Lib

namespace RawBuffer

def resize (p : BufferPool) (b : RawBuffer) (newSize : ℕ) (garbage : ℕ → UInt8) :
    Reply × BufferPool × RawBuffer :=
  if newSize ≤ b.capacity p then (.done, p, { b with pos := newSize })
  else
    match b.reserve p (newSize - b.capacity p) garbage with
    | (.error e, p, b) => (.thrown (.pool e), p, b)
    | (.ok (), p, b) => (.done, p, { b with pos := newSize })

end RawBuffer

/-- The calls of before, and `resize`. -/
inductive SizeOp
  | call (op : BufferOp)
  | resize (newSize : ℕ) (garbage : ℕ → UInt8)

namespace RawBuffer

def sizeStep (p : BufferPool) (b : RawBuffer) : SizeOp → Reply × BufferPool × RawBuffer
  | .call op => b.step p op
  | .resize newSize garbage => b.resize p newSize garbage

/-- The positions are inside the block, the read cursor inside the content. -/
def Valid (p : BufferPool) (b : RawBuffer) : Prop := b.readPos ≤ b.pos ∧ b.pos ≤ b.capacity p

/-- What a caller of `resize` relies on; `r` is what it returns. -/
structure Resized (p : BufferPool) (b : RawBuffer) (newSize : ℕ)
    (r : Reply × BufferPool × RawBuffer) : Prop where
  reply_eq : r.1 = .done
  size_eq : r.2.2.pos = newSize
  le_capacity : newSize ≤ r.2.2.capacity r.2.1
  kept : (r.2.2.data r.2.1).take (min b.pos newSize) = (b.data p).take (min b.pos newSize)

/-- The room is there or will be found, and the cursor is not cut off. -/
def FitsSize (p : BufferPool) (b : RawBuffer) (newSize : ℕ) : Prop :=
  if newSize ≤ b.capacity p then b.readPos ≤ newSize
  else b.buf = none ∨ 2 * b.capacity p < b.pos + newSize ∧
    newSize ≤ BufferPool.blockSize (b.pos + (newSize - b.capacity p))

section

variable {p : BufferPool} {held : List ℕ} {b : RawBuffer}

/-- Whatever the call is, the buffer is intact after it. -/
theorem Rep.keeps (h : Rep p held b) (hs : p.Sound held) (op : BufferOp) :
    ∃ held', Updates p held b (b.step p op).2.1 held' (b.step p op).2.2 ∧
      Rep (b.step p op).2.1 held' (b.step p op).2.2 := by
  cases op with
  | read len => exact ⟨held, h.read_keeps hs len⟩
  | append bytes garbage =>
      by_cases hne : bytes = []
      · subst hne
        exact ⟨held, h.updates_self hs rfl, h⟩
      · obtain ⟨held', hupdates, hrep, -⟩ := (h.append hs hne garbage).1
        exact ⟨held', hupdates, hrep⟩
  | rewind pos =>
      obtain ⟨held', hupdates, hrep, -⟩ := h.rewind hs pos
      exact ⟨held', hupdates, hrep⟩
  | rewindRead =>
      obtain ⟨held', hupdates, hrep, -⟩ := h.rewindRead hs
      exact ⟨held', hupdates, hrep⟩
  | popFront count =>
      by_cases hbuf : b.buf.isSome = true
      · obtain ⟨held', hupdates, hrep, -⟩ := h.popFront hs hbuf count
        exact ⟨held', hupdates, hrep⟩
      · have hnone : b.buf = none := by simpa using hbuf
        simp only [RawBuffer.step, RawBuffer.popFront, if_pos hnone]
        exact ⟨held, h.updates_self hs rfl, h⟩
  | «at» pos => exact ⟨held, h.updates_self hs rfl, h⟩
  | renew initialSize =>
      obtain ⟨held', hupdates, hrep, -⟩ := h.renew hs initialSize
      exact ⟨held', hupdates, hrep⟩

theorem FitsSize.readPos_le (h : Rep p held b) {newSize : ℕ} (hfits : b.FitsSize p newSize) :
    b.readPos ≤ newSize := by
  unfold FitsSize at hfits
  split_ifs at hfits with hle
  · exact hfits
  · have hcap := h.pos_le
    have hread := h.readPos_le
    omega

/-- What `reserve` is asked for is enough. -/
theorem le_reserved_iff {newSize : ℕ} (hlt : b.capacity p < newSize) :
    newSize ≤ b.reserved p (newSize - b.capacity p) ↔ b.FitsSize p newSize := by
  rw [FitsSize, if_neg (by omega), reserved]
  split_ifs with hnone hshort
  · have hcap : b.capacity p = 0 := by simp [capacity, data, hnone]
    have hblock := BufferPool.le_blockSize (max (newSize - b.capacity p) b.initialSize)
    have hmax := Nat.le_max_left (newSize - b.capacity p) b.initialSize
    simp only [hnone, true_or, iff_true]
    omega
  · have htwice : 2 * b.capacity p < b.pos + newSize := by omega
    simp [hnone, htwice]
  · have htwice : ¬ 2 * b.capacity p < b.pos + newSize := by omega
    simp only [hnone, htwice, false_and, or_false, iff_false]
    omega

/-- `resize` keeps the content and sets the position; whether the result is
valid is a matter of the state it found. -/
theorem Rep.resize (h : Rep p held b) (hs : p.Sound held) (newSize : ℕ) (garbage : ℕ → UInt8) :
    ∃ held', Updates p held b (b.resize p newSize garbage).2.1 held'
        (b.resize p newSize garbage).2.2 ∧
      (b.resize p newSize garbage).2.2.readPos = b.readPos ∧
      (Resized p b newSize (b.resize p newSize garbage) ↔
        newSize ≤ b.capacity p ∨ b.FitsSize p newSize) := by
  by_cases hle : newSize ≤ b.capacity p
  · have hresize : b.resize p newSize garbage = (.done, p, { b with pos := newSize }) := by
      simp only [RawBuffer.resize, if_pos hle]
    rw [hresize]
    refine ⟨held, h.updates_self hs rfl, rfl, ?_⟩
    simp only [hle, true_or, iff_true]
    exact ⟨rfl, rfl, hle, rfl⟩
  · have hlt := Nat.not_le.mp hle
    obtain ⟨held', p', blk, hreserve, hupdates, hcap, hview⟩ :=
      h.reserve hs (newSize - b.capacity p) garbage
    have hresize : b.resize p newSize garbage =
        (.done, p', { b with buf := some blk, pos := newSize }) := by
      simp only [RawBuffer.resize, if_neg hle, hreserve]
    have hpos : min b.pos newSize = b.pos :=
      Nat.min_eq_left (Nat.le_trans h.pos_le (Nat.le_of_lt hlt))
    rw [hresize]
    refine ⟨held', ⟨hupdates.sound, hupdates.mem, hupdates.owned, hupdates.others⟩, rfl, ?_⟩
    rw [← le_reserved_iff hlt, ← hcap]
    constructor
    · intro hresized
      exact .inr hresized.le_capacity
    · intro hroom
      refine ⟨rfl, rfl, hroom.resolve_left hle, ?_⟩
      rw [hpos]
      exact congrArg ResizeBuffer.bytes hview

end

end RawBuffer

/-! ## Histories -/

namespace Buffers

def sizeStep (s : Buffers) (call : ℕ × SizeOp) : Buffers :=
  let r := (s.buf call.1).sizeStep s.pool call.2
  ⟨r.2.1, Function.update s.buf call.1 r.2.2⟩

/-- The call leaves every buffer valid, and a `resize` does what it is for. -/
def StaysValid (s : Buffers) (call : ℕ × SizeOp) : Prop :=
  (∀ k, ((s.sizeStep call).buf k).Valid (s.sizeStep call).pool) ∧
    match call.2 with
    | .call _ => True
    | .resize newSize garbage =>
        (s.buf call.1).Resized s.pool newSize ((s.buf call.1).resize s.pool newSize garbage)

/-- The condition on the state in which a call is made. -/
def Admits (s : Buffers) (call : ℕ × SizeOp) : Prop :=
  match call.2 with
  | .call _ => True
  | .resize newSize _ => (s.buf call.1).FitsSize s.pool newSize

variable {s : Buffers} {held : List ℕ}

theorem Owned.valid (h : s.Owned held) (k : ℕ) : (s.buf k).Valid s.pool :=
  ⟨(h.rep k).readPos_le, (h.rep k).pos_le⟩

theorem Owned.sizeStep (h : s.Owned held) {call : ℕ × SizeOp} (hadmits : s.Admits call) :
    ∃ held', (s.sizeStep call).Owned held' := by
  obtain ⟨k, op⟩ := call
  cases op with
  | call op =>
      obtain ⟨held', hupdates, hrep⟩ := (h.rep k).keeps h.sound op
      exact ⟨held', (h.update hupdates hrep).1⟩
  | resize newSize garbage =>
      obtain ⟨held', hupdates, hread, hresized⟩ := (h.rep k).resize h.sound newSize garbage
      have hfits : (s.buf k).FitsSize s.pool newSize := hadmits
      have hdone := hresized.mpr (.inr hfits)
      refine ⟨held', (h.update hupdates ⟨hupdates.mem, ?_, ?_⟩).1⟩
      · rw [hdone.size_eq]
        exact hdone.le_capacity
      · rw [hdone.size_eq, hread]
        exact hfits.readPos_le (h.rep k)

theorem Owned.staysValid_iff (h : s.Owned held) (call : ℕ × SizeOp) :
    s.StaysValid call ↔ s.Admits call := by
  constructor
  · rintro ⟨hvalid, hcall⟩
    obtain ⟨k, op⟩ := call
    cases op with
    | call op => trivial
    | resize newSize garbage =>
        obtain ⟨held', hupdates, hread, hresized⟩ := (h.rep k).resize h.sound newSize garbage
        change (s.buf k).FitsSize s.pool newSize
        rcases hresized.mp hcall with hle | hfits
        · have hk := (hvalid k).1
          simp only [Buffers.sizeStep, RawBuffer.sizeStep, Function.update_self] at hk
          rw [hread, hcall.size_eq] at hk
          rw [RawBuffer.FitsSize, if_pos hle]
          exact hk
        · exact hfits
  · intro hadmits
    obtain ⟨held', howned⟩ := h.sizeStep hadmits
    refine ⟨howned.valid, ?_⟩
    obtain ⟨k, op⟩ := call
    cases op with
    | call op => trivial
    | resize newSize garbage =>
        obtain ⟨-, -, -, hresized⟩ := (h.rep k).resize h.sound newSize garbage
        exact hresized.mpr (.inr hadmits)

end Buffers

/-- A history leaves valid buffers all along exactly if each `resize` in it
finds room and a read cursor that stays inside. -/
theorem resizes_valid_iff (initialSize : ℕ → ℕ) (calls : List (ℕ × SizeOp)) :
    Throughout Buffers.sizeStep Buffers.StaysValid (.initial initialSize) calls ↔
      Throughout Buffers.sizeStep Buffers.Admits (.initial initialSize) calls := by
  refine @throughout_congr _ _ Buffers.sizeStep _ _ (fun s ↦ ∃ held, Buffers.Owned s held) _ _
    ⟨[], Buffers.owned_initial initialSize⟩ ?_ ?_
  · rintro s call ⟨held, h⟩ hadmits
    exact h.sizeStep hadmits
  · rintro s call ⟨held, h⟩
    exact h.staysValid_iff call

/-- One byte in a block of 64 and a new size of 100: the position is past the
end of the block.  Two bytes, both read, and a new size of 1: the cursor is
past the content. -/
theorem not_resizes_valid :
    (let s := List.foldl Buffers.sizeStep (.initial fun _ ↦ 64)
      [(0, .call (.append [7] fun _ ↦ 0)), (0, .resize 100 fun _ ↦ 0)]
    (s.buf 0).pos = 100 ∧ (s.buf 0).capacity s.pool = 64) ∧
    let s := List.foldl Buffers.sizeStep (.initial fun _ ↦ 64)
      [(0, .call (.append [7, 8] fun _ ↦ 0)), (0, .call (.read 2)), (0, .resize 1 fun _ ↦ 0)]
    (s.buf 0).readPos = 2 ∧ (s.buf 0).pos = 1 := by
  decide

end WiseKernel.Net
