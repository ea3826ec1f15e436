import Mathlib.Algebra.Group.Nat.Defs
import Mathlib.Logic.Function.Basic
import WiseKernel.Net.BufferPool
import WiseKernel.Net.ResizeBuffer

/-!
# The growing byte buffer in its blocks

`resize_buffer` as it is: a block of the pool all buffers share, of which the
bytes before `pos_` are the content and the others are what an earlier holder
left.  Whatever several buffers do in turn, each of them behaves as the list of
bytes with a cursor that `ResizeBuffer` is, as long as no read asks for more
than a `size_t` can count from the cursor.
-/

namespace WiseKernel.Net

open WiseKernel.Lib

/-! ## Writing to a block -/

namespace BufferPool

/-- Copy bytes to a place in a block. -/
def write (p : BufferPool) (block start : ℕ) (bytes : List UInt8) : BufferPool :=
  { p with memory := p.memory.modify block fun blk ↦
      { blk with data := overwrite blk.data start bytes } }

section

variable {p : BufferPool} {held : List ℕ} {block start : ℕ} {bytes data : List UInt8}

theorem dataOf_write (h : p.dataOf block = some data) :
    (p.write block start bytes).dataOf block = some (overwrite data start bytes) := by
  obtain ⟨blk, hblk, rfl⟩ := Option.map_eq_some_iff.mp h
  simp [write, dataOf, hblk]

theorem dataOf_write_ne {b : ℕ} (hb : b ≠ block) :
    (p.write block start bytes).dataOf b = p.dataOf b := by
  simp [write, dataOf, List.getElem?_modify_ne _ _ (Ne.symm hb)]

/-- Writing inside a block keeps the accounts. -/
theorem Sound.write (h : p.Sound held) (hdata : p.dataOf block = some data)
    (hfit : start + bytes.length ≤ data.length) : (p.write block start bytes).Sound held := by
  have hpool (b : ℕ) : (p.write block start bytes).poolOf b = p.poolOf b :=
    poolOf_modify (g := fun blk ↦ { blk with data := overwrite blk.data start bytes })
      p.pools block (fun _ ↦ rfl) b
  refine ⟨h.nodup, ?_, h.lengths_eq, ?_, ?_⟩
  · intro b hb
    simpa [BufferPool.write] using h.made b hb
  · intro i f hi
    refine (h.balanced i f hi).same (fun b ↦ by rw [hpool]) ?_
    exact heldOf_congr fun b _ ↦ hpool b
  · intro b blk i hb hi
    simp only [BufferPool.write, List.getElem?_modify] at hb
    obtain ⟨old, hold, rfl⟩ := Option.map_eq_some_iff.mp hb
    by_cases hbb : block = b
    · subst hbb
      obtain rfl : old.data = data := by simpa [dataOf, hold] using hdata
      obtain ⟨f, hf, hcap, hstate⟩ := h.pooled block old i hold (by simpa using hi)
      refine ⟨f, hf, ?_, by simpa using hstate⟩
      rw [← hcap]
      simp only [if_true, Buffer.capacity]
      exact length_overwrite hfit
    · simp only [if_neg hbb] at hi ⊢
      exact h.pooled b old i hold hi

end

end BufferPool

/-! ## The buffer -/

/-- `resize_buffer`; `buf` is the address of its block, if it has one. -/
structure RawBuffer where
  initialSize : ℕ
  buf : Option ℕ
  pos : ℕ
  readPos : ℕ
  deriving DecidableEq, Repr

namespace RawBuffer

inductive Error
  /-- `"popping more than existing bytes"` -/
  | popping
  /-- `"index out of range. {}/{}"` -/
  | outOfRange (pos size : ℕ)
  /-- from `pool_.release` -/
  | pool (e : BufferPool.Error)
  deriving DecidableEq, Repr

/-- What a call returns. -/
inductive Reply
  | written (len : ℕ)
  | read (rc : Bool) (bytes : List UInt8)
  | value (b : UInt8)
  | done
  | thrown (e : Error)
  deriving DecidableEq, Repr

/-- The constructor. -/
def new (initialSize : ℕ) : RawBuffer := ⟨initialSize, none, 0, 0⟩

/-- The bytes behind `data()`, to the end of the block. -/
def data (p : BufferPool) (b : RawBuffer) : List UInt8 := (b.buf.bind p.dataOf).getD []

def capacity (p : BufferPool) (b : RawBuffer) : ℕ := (b.data p).length

/-- Copy bytes to `data() + start`. -/
def store (p : BufferPool) (b : RawBuffer) (start : ℕ) (bytes : List UInt8) : BufferPool :=
  match b.buf with
  | none => p
  | some blk => p.write blk start bytes

def reserve (p : BufferPool) (b : RawBuffer) (len : ℕ) (garbage : ℕ → UInt8) :
    Except BufferPool.Error Unit × BufferPool × RawBuffer :=
  match b.buf with
  | none =>
      let (blk, p) := p.alloc (max len b.initialSize) garbage
      (.ok (), p, { b with buf := some blk })
  | some blk =>
      if b.capacity p < b.pos + len then
        let (nbuf, p) := p.alloc (b.pos + len) garbage
        let p := p.write nbuf 0 ((b.data p).take b.pos)
        match p.release (some blk) with
        | (.error e, p) => (.error e, p, b)
        | (.ok (), p) => (.ok (), p, { b with buf := some nbuf })
      else (.ok (), p, b)

def append (p : BufferPool) (b : RawBuffer) (bytes : List UInt8) (garbage : ℕ → UInt8) :
    Reply × BufferPool × RawBuffer :=
  if bytes = [] then (.written 0, p, b)
  else
    match b.reserve p bytes.length garbage with
    | (.error e, p, b) => (.thrown (.pool e), p, b)
    | (.ok (), p, b) =>
        (.written bytes.length, b.store p b.pos bytes, { b with pos := b.pos + bytes.length })

/-- Without a block there is nothing to copy from, and nothing is copied.  The
sum is one of `size_t`; what `memcpy` finds behind the block is not told. -/
def read (p : BufferPool) (b : RawBuffer) (len : UInt64) : Reply × BufferPool × RawBuffer :=
  let readEnd := (b.readPos + len.toNat) % 2 ^ 64
  if len = 0 then (.read true [], p, b)
  else if b.pos < readEnd then (.read false [], p, b)
  else (.read true (window (b.data p) b.readPos len.toNat), p, { b with readPos := readEnd })

def rewindRead (b : RawBuffer) : RawBuffer := { b with readPos := 0 }

def rewind (b : RawBuffer) (pos : ℕ) : RawBuffer :=
  if b.pos ≤ pos then b else { b with pos }.rewindRead

def popFront (p : BufferPool) (b : RawBuffer) (count : ℕ) : Reply × BufferPool × RawBuffer :=
  if b.buf = none then (.done, p, b)
  else if count = 0 then (.done, p, b)
  else if b.pos < count then (.thrown .popping, p, b)
  else
    (.done, b.store p 0 (window (b.data p) count (b.pos - count)),
      { b with
        pos := b.pos - count
        readPos := if count ≤ b.readPos then b.readPos - count else 0 })

def «at» (p : BufferPool) (b : RawBuffer) (pos : ℕ) : Reply :=
  if b.buf = none then .value 0
  else if b.pos ≤ pos then .thrown (.outOfRange pos b.pos)
  else .value ((b.data p).getD pos 0)

/-- The destructor, and the constructor of the next buffer. -/
def renew (p : BufferPool) (b : RawBuffer) (initialSize : ℕ) : Reply × BufferPool × RawBuffer :=
  match b.buf with
  | none => (.done, p, new initialSize)
  | some blk =>
      match p.release (some blk) with
      | (.error e, p) => (.thrown (.pool e), p, b)
      | (.ok (), p) => (.done, p, new initialSize)

end RawBuffer

/-- The calls on a buffer, and the end of its life. -/
inductive BufferOp
  | append (bytes : List UInt8) (garbage : ℕ → UInt8)
  | read (len : UInt64)
  | rewind (pos : ℕ)
  | rewindRead
  | popFront (count : ℕ)
  | at (pos : ℕ)
  | renew (initialSize : ℕ)

/-- The calls that need no block: the first one that counts, and the end. -/
def BufferOp.starts : BufferOp → Prop
  | .append bytes _ => bytes ≠ []
  | .renew _ => True
  | _ => False

/-- What a read asks for is counted from the cursor. -/
def BufferOp.CountsFrom (readPos : ℕ) : BufferOp → Prop
  | .read len => readPos + len.toNat < 2 ^ 64
  | _ => True

/-- Whether the buffer lives on. -/
def BufferOp.lasts : BufferOp → Bool
  | .renew _ => false
  | _ => true

def RawBuffer.step (p : BufferPool) (b : RawBuffer) :
    BufferOp → RawBuffer.Reply × BufferPool × RawBuffer
  | .append bytes garbage => b.append p bytes garbage
  | .read len => b.read p len
  | .rewind pos => (.done, p, b.rewind pos)
  | .rewindRead => (.done, p, b.rewindRead)
  | .popFront count => b.popFront p count
  | .at pos => (b.at p pos, p, b)
  | .renew initialSize => b.renew p initialSize

/-! ## The model -/

/-- The same calls on a list of bytes with a cursor. -/
def ResizeBuffer.step (b : ResizeBuffer) : BufferOp → RawBuffer.Reply × ResizeBuffer
  | .append bytes _ => (.written bytes.length, b.append bytes)
  | .read len => (.read (b.read len.toNat).1 (b.read len.toNat).2.1, (b.read len.toNat).2.2)
  | .rewind pos => (.done, b.rewind pos)
  | .rewindRead => (.done, { b with readPos := 0 })
  | .popFront count =>
      match b.popFront count with
      | some b' => (.done, b')
      | none => (.thrown .popping, b)
  | .at pos =>
      match b.bytes[pos]? with
      | some v => (.value v, b)
      | none => (.thrown (.outOfRange pos b.size), b)
  | .renew _ => (.done, ⟨[], 0⟩)

/-! ## One buffer -/

namespace RawBuffer

/-- The observable part: `data()[0 .. size())` and the read cursor. -/
def view (p : BufferPool) (b : RawBuffer) : ResizeBuffer := ⟨(b.data p).take b.pos, b.readPos⟩

/-- The block is the buffer's own, and the positions are inside. -/
structure Rep (p : BufferPool) (held : List ℕ) (b : RawBuffer) : Prop where
  mem : ∀ blk, b.buf = some blk → blk ∈ held
  pos_le : b.pos ≤ b.capacity p
  readPos_le : b.readPos ≤ b.pos

/-- What a call may do to the blocks: the buffer keeps its block or gets one
that was nobody's, and nobody else's block is touched. -/
structure Updates (p : BufferPool) (held : List ℕ) (b : RawBuffer) (p' : BufferPool)
    (held' : List ℕ) (b' : RawBuffer) : Prop where
  sound : p'.Sound held'
  mem : ∀ blk, b'.buf = some blk → blk ∈ held'
  owned : ∀ blk, b'.buf = some blk → blk ∉ held ∨ b.buf = some blk
  others : ∀ c ∈ held, b.buf ≠ some c → c ∈ held' ∧ p'.dataOf c = p.dataOf c

section

variable {p p' p'' : BufferPool} {held held' held'' : List ℕ} {b b' b'' : RawBuffer}

theorem Rep.length_view (h : Rep p held b) : (b.view p).bytes.length = b.pos := by
  rw [view, List.length_take]
  exact Nat.min_eq_left h.pos_le

theorem Rep.data_eq (h : Rep p held b) (hs : p.Sound held) {blk : ℕ} (hbuf : b.buf = some blk) :
    p.dataOf blk = some (b.data p) := by
  have hlt := hs.made blk (h.mem blk hbuf)
  simp [data, hbuf, BufferPool.dataOf, List.getElem?_eq_getElem hlt]

theorem Rep.updates_self (h : Rep p held b) (hs : p.Sound held) (hbuf : b'.buf = b.buf) :
    Updates p held b p held b' := by
  refine ⟨hs, ?_, ?_, fun c hc _ ↦ ⟨hc, rfl⟩⟩
  · intro blk hblk
    exact h.mem blk (hbuf.symm.trans hblk)
  · intro blk hblk
    exact .inr (hbuf.symm.trans hblk)

theorem Updates.trans (h : Updates p held b p' held' b') (h' : Updates p' held' b' p'' held'' b'') :
    Updates p held b p'' held'' b'' := by
  refine ⟨h'.sound, h'.mem, ?_, ?_⟩
  · intro blk hblk
    rcases h'.owned blk hblk with hnew | hkept
    · by_contra hnot
      obtain ⟨hheld, hbuf⟩ := not_or.mp hnot
      exact hnew (h.others blk (not_not.mp hheld) hbuf).1
    · exact h.owned blk hkept
  · intro c hc hbuf
    obtain ⟨hc', hdata⟩ := h.others c hc hbuf
    have hbuf' : b'.buf ≠ some c := by
      intro heq
      rcases h.owned c heq with hnew | hkept
      · exact hnew hc
      · exact hbuf hkept
    obtain ⟨hc'', hdata'⟩ := h'.others c hc' hbuf'
    exact ⟨hc'', hdata'.trans hdata⟩

/-- Writing inside the block. -/
theorem Rep.store (h : Rep p held b) (hs : p.Sound held) {start : ℕ} {bytes : List UInt8}
    (hfit : start + bytes.length ≤ b.capacity p) (b' : RawBuffer) (hbuf : b'.buf = b.buf) :
    Updates p held b (b.store p start bytes) held b' ∧
      b'.data (b.store p start bytes) = overwrite (b.data p) start bytes := by
  cases hb : b.buf with
  | none =>
      have hdata : b.data p = [] := by simp [data, hb]
      have hzero : start + bytes.length ≤ 0 := by simpa [capacity, hdata] using hfit
      obtain rfl : start = 0 := by omega
      obtain rfl : bytes = [] := List.length_eq_zero_iff.mp (by omega)
      have hstore : b.store p 0 [] = p := by simp [RawBuffer.store, hb]
      rw [hstore]
      refine ⟨h.updates_self hs hbuf, ?_⟩
      simp [overwrite, data, hbuf, hb]
  | some blk =>
      have hdata := h.data_eq hs hb
      have hstore : b.store p start bytes = p.write blk start bytes := by
        simp [RawBuffer.store, hb]
      rw [hstore]
      refine ⟨⟨hs.write hdata hfit, ?_, ?_, ?_⟩, ?_⟩
      · intro c hc
        exact h.mem c (hbuf.symm.trans hc)
      · intro c hc
        exact .inr (hbuf.symm.trans hc)
      · intro c hc hne
        refine ⟨hc, BufferPool.dataOf_write_ne ?_⟩
        rintro rfl
        exact hne hb
      · simp [data, hbuf, hb, BufferPool.dataOf_write hdata]

theorem take_overwrite {xs : List UInt8} {start : ℕ} (ys : List UInt8) (h : start ≤ xs.length) :
    (overwrite xs start ys).take (start + ys.length) = xs.take start ++ ys := by
  have hlen : (xs.take start ++ ys).length = start + ys.length := by
    rw [List.length_append, List.length_take_of_le h]
  rw [overwrite, ← hlen, List.take_left]

/-! ### Room for more -/

/-- The capacity after `reserve`. -/
def reserved (p : BufferPool) (b : RawBuffer) (len : ℕ) : ℕ :=
  if b.buf = none then BufferPool.blockSize (max len b.initialSize)
  else if b.capacity p < b.pos + len then BufferPool.blockSize (b.pos + len)
  else b.capacity p

theorem Rep.pos_eq_zero (h : Rep p held b) (hbuf : b.buf = none) : b.pos = 0 := by
  have hpos := h.pos_le
  simpa [capacity, data, hbuf] using hpos

theorem Rep.le_reserved (h : Rep p held b) (len : ℕ) : b.pos + len ≤ b.reserved p len := by
  unfold reserved
  split_ifs with hbuf hlt
  · rw [h.pos_eq_zero hbuf, Nat.zero_add]
    exact Nat.le_trans (Nat.le_max_left _ _) (BufferPool.le_blockSize _)
  · exact BufferPool.le_blockSize _
  · exact Nat.not_lt.mp hlt

/-- The content moves to a larger block, and the old block goes back. -/
theorem Rep.grow (h : Rep p held b) {blk : ℕ} (hb : b.buf = some blk) {n : ℕ}
    (hn : b.pos ≤ BufferPool.blockSize n) {nbuf : ℕ} {p₁ : BufferPool}
    (halloc : p.Allocates held n (nbuf, p₁)) :
    ∃ held' p₃,
      (p₁.write nbuf 0 ((b.data p₁).take b.pos)).release (some blk) = (.ok (), p₃) ∧
      Updates p held b p₃ held' { b with buf := some nbuf } ∧
      capacity p₃ { b with buf := some nbuf } = BufferPool.blockSize n ∧
      view p₃ { b with buf := some nbuf } = b.view p := by
  have hmem := h.mem blk hb
  obtain ⟨bytes, hbytes, hlen⟩ := halloc.large
  have hbytes : p₁.dataOf nbuf = some bytes := hbytes
  have hout : nbuf ∉ held := halloc.notMem
  have hne : nbuf ≠ blk := by
    rintro rfl
    exact hout hmem
  have hdata : b.data p₁ = b.data p := by
    simp only [data, hb, Option.bind_some]
    rw [halloc.others blk hmem]
  rw [hdata]
  have htake : ((b.data p).take b.pos).length = b.pos := List.length_take_of_le h.pos_le
  have hfit : 0 + ((b.data p).take b.pos).length ≤ bytes.length := by
    rw [htake, hlen, Nat.zero_add]
    exact hn
  have hwritten := @BufferPool.dataOf_write p₁ nbuf 0 ((b.data p).take b.pos) bytes hbytes
  have hsound := halloc.sound.write hbytes hfit
  set p₂ := p₁.write nbuf 0 ((b.data p).take b.pos) with hp₂
  obtain ⟨hok, hsound', hsame⟩ := hsound.release_held (List.mem_cons_of_mem nbuf hmem)
  have hnew := (hsame nbuf).trans hwritten
  refine ⟨_, (p₂.release (some blk)).2, by rw [← hok], ⟨hsound', ?_, ?_, ?_⟩, ?_, ?_⟩
  · intro c hc
    rw [← Option.some.inj hc]
    exact (List.mem_erase_of_ne hne).mpr List.mem_cons_self
  · intro c hc
    rw [← Option.some.inj hc]
    exact .inl hout
  · intro c hc hcne
    have hcb : c ≠ blk := by
      rintro rfl
      exact hcne hb
    have hcn : c ≠ nbuf := by
      rintro rfl
      exact hout hc
    refine ⟨(List.mem_erase_of_ne hcb).mpr (List.mem_cons_of_mem _ hc), ?_⟩
    rw [hsame, hp₂, BufferPool.dataOf_write_ne hcn]
    exact halloc.others c hc
  · simp only [capacity, data, Option.bind_some, hnew, Option.getD_some]
    exact (length_overwrite hfit).trans hlen
  · have hfront := take_overwrite ((b.data p).take b.pos) (Nat.zero_le bytes.length)
    rw [htake, Nat.zero_add, List.take_zero, List.nil_append] at hfront
    have hmoved : data (p₂.release (some blk)).2 { b with buf := some nbuf } =
        overwrite bytes 0 ((b.data p).take b.pos) := by
      simp only [data, Option.bind_some, hnew, Option.getD_some]
    rw [view, hmoved]
    exact congrArg (fun xs ↦ (⟨xs, b.readPos⟩ : ResizeBuffer)) hfront

/-- `reserve` gives the buffer a block with room and moves the content. -/
theorem Rep.reserve (h : Rep p held b) (hs : p.Sound held) (len : ℕ) (garbage : ℕ → UInt8) :
    ∃ held' p' blk, b.reserve p len garbage = (.ok (), p', { b with buf := some blk }) ∧
      Updates p held b p' held' { b with buf := some blk } ∧
      capacity p' { b with buf := some blk } = b.reserved p len ∧
      view p' { b with buf := some blk } = b.view p := by
  cases hb : b.buf with
  | none =>
      have halloc := hs.alloc (max len b.initialSize) garbage
      obtain ⟨bytes, hbytes, hlen⟩ := halloc.large
      refine ⟨_, _, (p.alloc (max len b.initialSize) garbage).1, ?_, ⟨halloc.sound, ?_, ?_, ?_⟩,
        ?_, ?_⟩
      · simp [RawBuffer.reserve, hb]
      · intro c hc
        rw [← Option.some.inj hc]
        exact List.mem_cons_self
      · intro c hc
        rw [← Option.some.inj hc]
        exact .inl halloc.notMem
      · intro c hc _
        exact ⟨List.mem_cons_of_mem _ hc, halloc.others c hc⟩
      · simp [capacity, data, hbytes, reserved, hb, hlen]
      · simp [view, h.pos_eq_zero hb]
  | some blk =>
      by_cases hlt : b.capacity p < b.pos + len
      · have hn : b.pos ≤ BufferPool.blockSize (b.pos + len) :=
          Nat.le_trans (Nat.le_add_right _ _) (BufferPool.le_blockSize _)
        have halloc := hs.alloc (b.pos + len) garbage
        cases hr : p.alloc (b.pos + len) garbage with
        | mk nbuf p₁ =>
        rw [hr] at halloc
        obtain ⟨held', p₃, hrelease, hupdates, hcap, hview⟩ := h.grow hb hn halloc
        refine ⟨held', p₃, nbuf, ?_, hupdates, ?_, hview⟩
        · simp only [RawBuffer.reserve, hb, if_pos hlt, hr, hrelease]
        · rw [hcap, reserved, if_neg (by simp [hb]), if_pos hlt]
      · have hsame : ({ b with buf := some blk } : RawBuffer) = b := by rw [← hb]
        refine ⟨held, p, blk, ?_, ?_, ?_, ?_⟩
        · simp only [RawBuffer.reserve, hb, if_neg hlt, hsame]
        · rw [hsame]
          exact h.updates_self hs rfl
        · rw [hsame, reserved, if_neg (by simp [hb]), if_neg hlt]
        · rw [hsame]

/-! ### Every call -/

/-- The call answers as the model does, leaves the buffer as the model is, and
keeps to its own block. -/
def Does (p : BufferPool) (held : List ℕ) (b : RawBuffer) (r : Reply × BufferPool × RawBuffer)
    (spec : Reply × ResizeBuffer) : Prop :=
  ∃ held', Updates p held b r.2.1 held' r.2.2 ∧ Rep r.2.1 held' r.2.2 ∧ r.1 = spec.1 ∧
    r.2.2.view r.2.1 = spec.2

/-- A call that writes nothing. -/
theorem Rep.does_same (h : Rep p held b) (hs : p.Sound held) (b' : RawBuffer)
    (hbuf : b'.buf = b.buf) (hpos : b'.pos ≤ b.pos) (hread : b'.readPos ≤ b'.pos) {r r' : Reply}
    {v : ResizeBuffer} (hr : r = r') (hview : b'.view p = v) :
    Does p held b (r, p, b') (r', v) := by
  have hupdates := h.updates_self hs hbuf
  refine ⟨held, hupdates, ⟨hupdates.mem, ?_, hread⟩, hr, hview⟩
  have hcap : b'.capacity p = b.capacity p := by simp [capacity, data, hbuf]
  rw [hcap]
  exact Nat.le_trans hpos h.pos_le

theorem Rep.append (h : Rep p held b) (hs : p.Sound held) {bytes : List UInt8} (hne : bytes ≠ [])
    (garbage : ℕ → UInt8) :
    Does p held b (b.append p bytes garbage) (.written bytes.length, (b.view p).append bytes) ∧
      (b.append p bytes garbage).2.2.buf.isSome = true := by
  obtain ⟨held', p', blk, hreserve, hupdates, hcap, hview⟩ := h.reserve hs bytes.length garbage
  set b₁ : RawBuffer := { b with buf := some blk } with hb₁
  have hroom : b.pos + bytes.length ≤ b₁.capacity p' := by
    rw [hcap]
    exact h.le_reserved _
  have hrep : Rep p' held' b₁ :=
    ⟨hupdates.mem, Nat.le_trans (Nat.le_add_right _ _) hroom, h.readPos_le⟩
  have happend : b.append p bytes garbage = (.written bytes.length, b₁.store p' b.pos bytes,
      { b₁ with pos := b.pos + bytes.length }) := by
    simp only [RawBuffer.append, if_neg hne, hreserve]
    rfl
  obtain ⟨hstored, hdata⟩ := hrep.store hupdates.sound hroom
    { b₁ with pos := b.pos + bytes.length } rfl
  rw [happend]
  refine ⟨⟨held', hupdates.trans hstored, ⟨hstored.mem, ?_, ?_⟩, rfl, ?_⟩, rfl⟩
  · rw [capacity, hdata, length_overwrite hroom]
    exact hroom
  · exact Nat.le_trans h.readPos_le (Nat.le_add_right _ _)
  · have hold : (b₁.data p').take b.pos = (b.data p).take b.pos := congrArg ResizeBuffer.bytes hview
    have htake := take_overwrite bytes hrep.pos_le
    have hbytes : (overwrite (b₁.data p') b.pos bytes).take (b.pos + bytes.length) =
        (b.data p).take b.pos ++ bytes := by
      rw [← hold]
      exact htake
    rw [view, hdata]
    exact congrArg (fun xs ↦ (⟨xs, b.readPos⟩ : ResizeBuffer)) hbytes

theorem Rep.read (h : Rep p held b) (hs : p.Sound held) {len : UInt64}
    (hlen : b.readPos + len.toNat < 2 ^ 64) :
    Does p held b (b.read p len) ((b.view p).step (.read len)) := by
  have hsize : (b.view p).size = b.pos := h.length_view
  simp only [RawBuffer.read, ResizeBuffer.step, Nat.mod_eq_of_lt hlen]
  by_cases h0 : len = 0
  · subst h0
    have hread : (b.view p).read 0 = (true, [], b.view p) := by simp [ResizeBuffer.read]
    rw [if_pos rfl, UInt64.toNat_zero, hread]
    exact h.does_same hs b rfl (Nat.le_refl _) h.readPos_le rfl rfl
  · have hne : len.toNat ≠ 0 := fun hzero ↦ h0 (UInt64.toNat_inj.mp hzero)
    rw [if_neg h0]
    by_cases hlt : b.pos < b.readPos + len.toNat
    · rw [if_pos hlt, ResizeBuffer.read_of_lt (by rw [hsize]; exact hlt) hne]
      exact h.does_same hs b rfl (Nat.le_refl _) h.readPos_le rfl rfl
    · have hle : b.readPos + len.toNat ≤ b.pos := Nat.not_lt.mp hlt
      have hwindow : window (b.data p) b.readPos len.toNat =
          window (b.view p).bytes (b.view p).readPos len.toNat := by
        change ((b.data p).drop b.readPos).take len.toNat =
          (((b.data p).take b.pos).drop b.readPos).take len.toNat
        rw [List.drop_take, List.take_take, Nat.min_eq_left (by omega)]
      rw [if_neg hlt, ResizeBuffer.read_of_le (by rw [hsize]; exact hle), hwindow]
      exact h.does_same hs { b with readPos := b.readPos + len.toNat } rfl (Nat.le_refl _) hle
        rfl rfl

/-- Also a sum that wraps leaves the cursor inside. -/
theorem Rep.read_keeps (h : Rep p held b) (hs : p.Sound held) (len : UInt64) :
    Updates p held b (b.read p len).2.1 held (b.read p len).2.2 ∧
      Rep (b.read p len).2.1 held (b.read p len).2.2 := by
  simp only [RawBuffer.read]
  split_ifs with h0 hlt
  · exact ⟨h.updates_self hs rfl, h⟩
  · exact ⟨h.updates_self hs rfl, h⟩
  · exact ⟨h.updates_self hs rfl, h.mem, h.pos_le, Nat.not_lt.mp hlt⟩

/-- A sum that wraps is before the cursor: the test is passed where the list has
nothing more, or the cursor goes back. -/
theorem Rep.read_wraps (h : Rep p held b) {len : UInt64} (hcursor : b.readPos < 2 ^ 64)
    (hlen : 2 ^ 64 ≤ b.readPos + len.toNat) :
    (b.read p len).1 ≠ ((b.view p).step (.read len)).1 ∨
      (b.read p len).2.2.readPos ≠ ((b.view p).step (.read len)).2.readPos := by
  have hword := len.toNat_lt
  have hne : len.toNat ≠ 0 := by omega
  have h0 : len ≠ 0 := fun hzero ↦ hne (by rw [hzero]; rfl)
  have hwrap : (b.readPos + len.toNat) % 2 ^ 64 = b.readPos + len.toNat - 2 ^ 64 := by omega
  have hpass : ¬ b.pos < (b.readPos + len.toNat) % 2 ^ 64 := by
    have hle := h.readPos_le
    omega
  simp only [RawBuffer.read, if_neg h0, if_neg hpass, ResizeBuffer.step]
  by_cases hle : b.readPos + len.toNat ≤ (b.view p).size
  · right
    rw [ResizeBuffer.read_of_le hle, hwrap]
    change _ ≠ b.readPos + len.toNat
    omega
  · left
    rw [ResizeBuffer.read_of_lt (Nat.not_le.mp hle) hne]
    simp

theorem Rep.rewind (h : Rep p held b) (hs : p.Sound held) (pos : ℕ) :
    Does p held b (.done, p, b.rewind pos) (.done, (b.view p).rewind pos) := by
  have hsize : (b.view p).size = b.pos := h.length_view
  unfold RawBuffer.rewind ResizeBuffer.rewind
  rw [hsize]
  by_cases hle : b.pos ≤ pos
  · rw [if_pos hle, if_pos hle]
    exact h.does_same hs b rfl (Nat.le_refl _) h.readPos_le rfl rfl
  · rw [if_neg hle, if_neg hle]
    have htake : (b.data p).take pos = ((b.data p).take b.pos).take pos := by
      rw [List.take_take, Nat.min_eq_left (by omega)]
    have hview : ({ b with pos }).rewindRead.view p = ⟨(b.view p).bytes.take pos, 0⟩ :=
      congrArg (fun xs ↦ (⟨xs, 0⟩ : ResizeBuffer)) htake
    exact h.does_same hs ({ b with pos }).rewindRead rfl (Nat.le_of_lt (Nat.not_le.mp hle))
      (Nat.zero_le _) rfl hview

theorem Rep.rewindRead (h : Rep p held b) (hs : p.Sound held) :
    Does p held b (.done, p, b.rewindRead) (.done, { b.view p with readPos := 0 }) :=
  h.does_same hs b.rewindRead rfl (Nat.le_refl _) (Nat.zero_le _) rfl rfl

theorem Rep.popFront (h : Rep p held b) (hs : p.Sound held) (hbuf : b.buf.isSome = true)
    (count : ℕ) : Does p held b (b.popFront p count) ((b.view p).step (.popFront count)) := by
  have hsize : (b.view p).size = b.pos := h.length_view
  have hne : b.buf ≠ none := by
    intro hnone
    simp [hnone] at hbuf
  simp only [RawBuffer.popFront, if_neg hne, ResizeBuffer.step, ResizeBuffer.popFront, hsize]
  by_cases h0 : count = 0
  · rw [if_pos h0, if_pos h0]
    exact h.does_same hs b rfl (Nat.le_refl _) h.readPos_le rfl rfl
  by_cases hlt : b.pos < count
  · rw [if_neg h0, if_neg h0, if_pos hlt, if_pos hlt]
    exact h.does_same hs b rfl (Nat.le_refl _) h.readPos_le rfl rfl
  rw [if_neg h0, if_neg h0, if_neg hlt, if_neg hlt]
  have hcap : b.pos ≤ (b.data p).length := h.pos_le
  have hcursor := h.readPos_le
  have hkept : (window (b.data p) count (b.pos - count)).length = b.pos - count :=
    length_window (by omega)
  have hfit : 0 + (window (b.data p) count (b.pos - count)).length ≤ b.capacity p := by
    rw [hkept, capacity]
    omega
  have hmoved : (overwrite (b.data p) 0 (window (b.data p) count (b.pos - count))).take
      (b.pos - count) = ((b.data p).take b.pos).drop count := by
    have htake := take_overwrite (window (b.data p) count (b.pos - count))
      (Nat.zero_le (b.data p).length)
    rw [hkept, Nat.zero_add, List.take_zero, List.nil_append] at htake
    rw [htake, window, List.drop_take]
  set b₁ : RawBuffer := { b with
    pos := b.pos - count
    readPos := if count ≤ b.readPos then b.readPos - count else 0 } with hb₁
  obtain ⟨hstored, hdata⟩ := h.store hs hfit b₁ rfl
  refine ⟨held, hstored, ⟨hstored.mem, ?_, ?_⟩, rfl, ?_⟩
  · change b.pos - count ≤ capacity _ b₁
    rw [capacity, hdata, length_overwrite hfit]
    omega
  · change (if count ≤ b.readPos then b.readPos - count else 0) ≤ b.pos - count
    split_ifs <;> omega
  · change view _ b₁ = _
    rw [view, hdata]
    exact congrArg (fun xs ↦ (⟨xs, b₁.readPos⟩ : ResizeBuffer)) hmoved

theorem Rep.at (h : Rep p held b) (hs : p.Sound held) (hbuf : b.buf.isSome = true) (pos : ℕ) :
    Does p held b (b.at p pos, p, b) ((b.view p).step (.at pos)) := by
  have hsize : (b.view p).bytes.length = b.pos := h.length_view
  have hne : b.buf ≠ none := by
    intro hnone
    simp [hnone] at hbuf
  rw [RawBuffer.at, if_neg hne]
  by_cases hle : b.pos ≤ pos
  · have hnone : (b.view p).bytes[pos]? = none := List.getElem?_eq_none (by omega)
    rw [if_pos hle, ResizeBuffer.step, hnone]
    refine h.does_same hs b rfl (Nat.le_refl _) h.readPos_le ?_ rfl
    rw [ResizeBuffer.size, hsize]
  · have hlt : pos < (b.data p).length := by
      have hcap : b.pos ≤ (b.data p).length := h.pos_le
      omega
    have hsome : (b.view p).bytes[pos]? = some (b.data p)[pos] := by
      change ((b.data p).take b.pos)[pos]? = _
      rw [List.getElem?_take_of_lt (Nat.not_le.mp hle), List.getElem?_eq_getElem hlt]
    rw [if_neg hle, ResizeBuffer.step, hsome]
    refine h.does_same hs b rfl (Nat.le_refl _) h.readPos_le ?_ rfl
    rw [List.getD_eq_getElem?_getD, List.getElem?_eq_getElem hlt, Option.getD_some]

theorem Rep.renew (h : Rep p held b) (hs : p.Sound held) (initialSize : ℕ) :
    Does p held b (b.renew p initialSize) (.done, ⟨[], 0⟩) := by
  have hrep (p' : BufferPool) (held' : List ℕ) : Rep p' held' (new initialSize) :=
    ⟨by simp [new], Nat.zero_le _, Nat.zero_le _⟩
  have hempty (p' : BufferPool) : (new initialSize).view p' = ⟨[], 0⟩ := by
    simp [view, new]
  cases hb : b.buf with
  | none =>
      have hrenew : b.renew p initialSize = (.done, p, new initialSize) := by
        simp [RawBuffer.renew, hb]
      rw [hrenew]
      exact ⟨held, h.updates_self hs hb.symm, hrep p held, rfl, hempty p⟩
  | some blk =>
      obtain ⟨hok, hsound, hdata⟩ := hs.release_held (h.mem blk hb)
      have hrelease : p.release (some blk) = (.ok (), (p.release (some blk)).2) := by rw [← hok]
      have hrenew : b.renew p initialSize =
          (.done, (p.release (some blk)).2, new initialSize) := by
        simp only [RawBuffer.renew, hb]
        rw [hrelease]
      rw [hrenew]
      refine ⟨held.erase blk, ⟨hsound, (hrep p _).mem, by simp [new], ?_⟩,
        hrep _ _, rfl, hempty _⟩
      intro c hc hne
      refine ⟨(List.mem_erase_of_ne ?_).mpr hc, hdata c⟩
      rintro rfl
      exact hne hb

/-- What a call does, provided that the buffer has begun or this call begins it,
and that a read counts no further than `size_t` does. -/
theorem Rep.step (h : Rep p held b) (hs : p.Sound held) (op : BufferOp)
    (hstart : b.buf.isSome = true ∨ op.starts) (hcounts : op.CountsFrom b.readPos) :
    Does p held b (b.step p op) ((b.view p).step op) := by
  cases op with
  | append bytes garbage =>
      by_cases hne : bytes = []
      · subst hne
        have hview : b.view p = (b.view p).append [] := by simp [ResizeBuffer.append]
        simp only [RawBuffer.step, RawBuffer.append, if_true]
        exact h.does_same hs b rfl (Nat.le_refl _) h.readPos_le rfl hview
      · exact (h.append hs hne garbage).1
  | read len => exact h.read hs hcounts
  | rewind pos => exact h.rewind hs pos
  | rewindRead => exact h.rewindRead hs
  | popFront count => exact h.popFront hs (hstart.resolve_right id) count
  | «at» pos => exact h.at hs (hstart.resolve_right id) pos
  | renew initialSize => exact h.renew hs initialSize

/-- Only the destructor takes the block away. -/
theorem Rep.isSome_step (h : Rep p held b) (hs : p.Sound held) (op : BufferOp)
    (hstart : b.buf.isSome = true ∨ op.starts) (hlast : op.lasts = true) :
    (b.step p op).2.2.buf.isSome = true := by
  cases op with
  | append bytes garbage =>
      by_cases hne : bytes = []
      · subst hne
        have hbuf : b.buf.isSome = true := hstart.resolve_right fun hstarts ↦ hstarts rfl
        simpa [RawBuffer.step, RawBuffer.append] using hbuf
      · exact (h.append hs hne garbage).2
  | renew initialSize => exact absurd hlast Bool.false_ne_true
  | rewind pos =>
      have hbuf : b.buf.isSome = true := hstart.resolve_right id
      simp only [RawBuffer.step, RawBuffer.rewind]
      split_ifs <;> exact hbuf
  | rewindRead => exact hstart.resolve_right id
  | «at» pos => exact hstart.resolve_right id
  | read len =>
      have hbuf : b.buf.isSome = true := hstart.resolve_right id
      simp only [RawBuffer.step, RawBuffer.read]
      split_ifs <;> exact hbuf
  | popFront count =>
      have hbuf : b.buf.isSome = true := hstart.resolve_right id
      simp only [RawBuffer.step, RawBuffer.popFront]
      split_ifs <;> exact hbuf

/-- The cursor is a `size_t`, whatever the calls are. -/
theorem readPos_step_lt (p : BufferPool) (op : BufferOp) (h : b.readPos < 2 ^ 64) :
    (b.step p op).2.2.readPos < 2 ^ 64 := by
  have hreserve (len : ℕ) (garbage : ℕ → UInt8) :
      (b.reserve p len garbage).2.2.readPos = b.readPos := by
    simp only [RawBuffer.reserve]
    repeat' split
    all_goals rfl
  cases op with
  | append bytes garbage =>
      simp only [RawBuffer.step, RawBuffer.append]
      split_ifs
      · exact h
      · have hkept := hreserve bytes.length garbage
        split
        next heq =>
          rw [heq] at hkept
          exact hkept ▸ h
        next heq =>
          rw [heq] at hkept
          exact hkept ▸ h
  | read len =>
      simp only [RawBuffer.step, RawBuffer.read]
      split_ifs
      · exact h
      · exact h
      · exact Nat.mod_lt _ (Nat.two_pow_pos 64)
  | rewind pos =>
      simp only [RawBuffer.step, RawBuffer.rewind]
      split_ifs
      · exact h
      · exact Nat.two_pow_pos 64
  | rewindRead => exact Nat.two_pow_pos 64
  | popFront count =>
      simp only [RawBuffer.step, RawBuffer.popFront]
      split_ifs
      · exact h
      · exact h
      · exact h
      · exact Nat.lt_of_le_of_lt (Nat.sub_le _ _) h
      · exact Nat.two_pow_pos 64
  | «at» pos => exact h
  | renew initialSize =>
      simp only [RawBuffer.step, RawBuffer.renew]
      repeat' split
      · exact Nat.two_pow_pos 64
      · exact h
      · exact Nat.two_pow_pos 64

/-- A buffer whose block was not touched. -/
theorem Rep.frame (h : Rep p held b)
    (hsame : ∀ c, b.buf = some c → c ∈ held' ∧ p'.dataOf c = p.dataOf c) :
    Rep p' held' b ∧ b.view p' = b.view p := by
  have hdata : b.data p' = b.data p := by
    cases hb : b.buf with
    | none => simp [data, hb]
    | some c => simp [data, hb, (hsame c hb).2]
  refine ⟨⟨fun c hc ↦ (hsame c hc).1, ?_, h.readPos_le⟩, ?_⟩
  · rw [capacity, hdata]
    exact h.pos_le
  · rw [view, view, hdata]

end

end RawBuffer

/-! ## All buffers -/

/-- Every buffer, and the pool they share. -/
structure Buffers where
  pool : BufferPool
  buf : ℕ → RawBuffer

namespace Buffers

def initial (initialSize : ℕ → ℕ) : Buffers := ⟨.new, fun k ↦ .new (initialSize k)⟩

/-- A call on the buffer `call.1`. -/
def step (s : Buffers) (call : ℕ × BufferOp) : RawBuffer.Reply × Buffers :=
  let r := (s.buf call.1).step s.pool call.2
  (r.1, ⟨r.2.1, Function.update s.buf call.1 r.2.2⟩)

end Buffers

/-- The lists the buffers stand for, and which of them have begun. -/
structure ByteLists where
  begun : ℕ → Bool
  buf : ℕ → ResizeBuffer

namespace ByteLists

def initial : ByteLists := ⟨fun _ ↦ false, fun _ ↦ ⟨[], 0⟩⟩

def step (m : ByteLists) (call : ℕ × BufferOp) : RawBuffer.Reply × ByteLists :=
  (((m.buf call.1).step call.2).1,
    ⟨Function.update m.begun call.1 call.2.lasts,
      Function.update m.buf call.1 ((m.buf call.1).step call.2).2⟩)

/-- A buffer is used from its first non-empty append on. -/
def Starts (m : ByteLists) (call : ℕ × BufferOp) : Prop :=
  m.begun call.1 = true ∨ call.2.starts

/-- A read counts from the cursor to a number of `size_t`. -/
def Counts (m : ByteLists) (call : ℕ × BufferOp) : Prop :=
  call.2.CountsFrom (m.buf call.1).readPos

end ByteLists

namespace Buffers

/-- Each buffer has a block of its own. -/
structure Owned (s : Buffers) (held : List ℕ) : Prop where
  sound : s.pool.Sound held
  rep : ∀ k, (s.buf k).Rep s.pool held
  apart : ∀ j k c, (s.buf j).buf = some c → (s.buf k).buf = some c → j = k

theorem owned_initial (initialSize : ℕ → ℕ) : (initial initialSize).Owned [] := by
  refine ⟨BufferPool.sound_new, ?_, ?_⟩
  · intro k
    exact ⟨by simp [initial, RawBuffer.new], Nat.zero_le _, Nat.zero_le _⟩
  · intro j k c hc
    simp [initial, RawBuffer.new] at hc

/-- What one buffer does to its own block, the others do not see. -/
theorem Owned.update {s : Buffers} {held held' : List ℕ} (h : s.Owned held) {k : ℕ}
    {p' : BufferPool} {b' : RawBuffer} (hupdates : (s.buf k).Updates s.pool held p' held' b')
    (hrep : b'.Rep p' held') :
    (Buffers.mk p' (Function.update s.buf k b')).Owned held' ∧
      ∀ j ≠ k, (s.buf j).view p' = (s.buf j).view s.pool := by
  have hframe (j : ℕ) (hj : j ≠ k) := (h.rep j).frame fun c hc ↦
    hupdates.others c ((h.rep j).mem c hc) fun hk ↦ hj (h.apart j k c hc hk)
  -- a block of another buffer is not the one this buffer has now
  have hapart (j c : ℕ) (hj : j ≠ k) (hc : (s.buf j).buf = some c) : b'.buf ≠ some c := by
    intro hnow
    rcases hupdates.owned c hnow with hnew | hold
    · exact hnew ((h.rep j).mem c hc)
    · exact hj (h.apart j k c hc hold)
  refine ⟨⟨hupdates.sound, ?_, ?_⟩, fun j hj ↦ (hframe j hj).2⟩
  · intro j
    by_cases hj : j = k
    · subst hj
      simpa using hrep
    · simpa [hj] using (hframe j hj).1
  · intro i j c hi hj
    by_cases hik : i = k <;> by_cases hjk : j = k
    · rw [hik, hjk]
    · subst hik
      simp only [Function.update_self, Function.update_of_ne hjk] at hi hj
      exact absurd hi (hapart j c hjk hj)
    · subst hjk
      simp only [Function.update_self, Function.update_of_ne hik] at hi hj
      exact absurd hj (hapart i c hik hi)
    · simp only [Function.update_of_ne hik, Function.update_of_ne hjk] at hi hj
      exact h.apart i j c hi hj

/-- The buffers hold the lists. -/
structure Agrees (s : Buffers) (m : ByteLists) (held : List ℕ) : Prop extends s.Owned held where
  readPos_lt : ∀ k, (s.buf k).readPos < 2 ^ 64
  begun : ∀ k, m.begun k = true → (s.buf k).buf.isSome = true
  view_eq : ∀ k, (s.buf k).view s.pool = m.buf k

/-- The buffers stand for the lists. -/
def Models (s : Buffers) (m : ByteLists) : Prop := ∃ held, s.Agrees m held

theorem agrees_initial (initialSize : ℕ → ℕ) : (initial initialSize).Agrees .initial [] := by
  refine ⟨owned_initial initialSize, fun _ ↦ Nat.two_pow_pos 64, ?_, ?_⟩
  · intro k hk
    exact absurd hk Bool.false_ne_true
  · intro k
    simp [initial, RawBuffer.view, RawBuffer.new, ByteLists.initial]

variable {s : Buffers} {m : ByteLists} {held : List ℕ}

theorem Agrees.step (h : s.Agrees m held) (call : ℕ × BufferOp) (hstart : m.Starts call)
    (hcounts : m.Counts call) :
    (s.step call).1 = (m.step call).1 ∧ (s.step call).2.Models (m.step call).2 := by
  obtain ⟨k, op⟩ := call
  have hbegun : (s.buf k).buf.isSome = true ∨ op.starts := Or.imp_left (h.begun k) hstart
  have hcursor : op.CountsFrom (s.buf k).readPos := by
    have hview := congrArg ResizeBuffer.readPos (h.view_eq k)
    rw [show (s.buf k).readPos = (m.buf k).readPos from hview]
    exact hcounts
  obtain ⟨held', hupdates, hrep, hreply, hview⟩ := (h.rep k).step h.sound op hbegun hcursor
  have hmine := (h.rep k).isSome_step h.sound op hbegun
  have hword := RawBuffer.readPos_step_lt s.pool op (h.readPos_lt k)
  rw [h.view_eq k] at hreply hview
  obtain ⟨howned, hothers⟩ := h.toOwned.update hupdates hrep
  refine ⟨hreply, held', howned, ?_, ?_, ?_⟩
  · intro j
    by_cases hjk : j = k
    · subst hjk
      simpa [Buffers.step] using hword
    · simpa [Buffers.step, hjk] using h.readPos_lt j
  · intro j hj
    by_cases hjk : j = k
    · subst hjk
      simp only [ByteLists.step, Function.update_self] at hj
      simpa [Buffers.step] using hmine hj
    · simp only [ByteLists.step, Function.update_of_ne hjk] at hj
      simpa [Buffers.step, hjk] using h.begun j hj
  · intro j
    by_cases hj : j = k
    · subst hj
      simpa [Buffers.step, ByteLists.step] using hview
    · simpa [Buffers.step, ByteLists.step, hj] using (hothers j hj).trans (h.view_eq j)

/-- What can be seen of the buffers is what the lists are. -/
structure Shows (s : Buffers) (m : ByteLists) : Prop where
  bytes_eq : ∀ k, ((s.buf k).data s.pool).take (s.buf k).pos = (m.buf k).bytes
  size_eq : ∀ k, (s.buf k).pos = (m.buf k).size
  readPos_eq : ∀ k, (s.buf k).readPos = (m.buf k).readPos
  readPos_le : ∀ k, (m.buf k).readPos ≤ (m.buf k).size

theorem Agrees.shows (h : s.Agrees m held) : s.Shows m := by
  have hsize (k : ℕ) : (m.buf k).size = (s.buf k).pos := by
    rw [← h.view_eq k]
    exact (h.rep k).length_view
  refine ⟨fun k ↦ congrArg ResizeBuffer.bytes (h.view_eq k), fun k ↦ (hsize k).symm,
    fun k ↦ congrArg ResizeBuffer.readPos (h.view_eq k), ?_⟩
  intro k
  rw [hsize, ← h.view_eq k]
  exact (h.rep k).readPos_le

/-- The same call on the buffers and on the lists. -/
def stepBoth (st : Buffers × ByteLists) (call : ℕ × BufferOp) : Buffers × ByteLists :=
  ((st.1.step call).2, (st.2.step call).2)

/-- Both answer the same, and show the same after it. -/
def Alike (st : Buffers × ByteLists) (call : ℕ × BufferOp) : Prop :=
  (st.1.step call).1 = (st.2.step call).1 ∧ (stepBoth st call).1.Shows (stepBoth st call).2

/-- One call in a state in which the buffers hold the lists. -/
theorem Agrees.alike_iff (h : s.Agrees m held) (call : ℕ × BufferOp) (hstart : m.Starts call) :
    Alike (s, m) call ↔ m.Counts call := by
  constructor
  · rintro ⟨hreply, hshows⟩
    by_contra hnot
    obtain ⟨k, op⟩ := call
    cases op with
    | read len =>
        have hview := h.view_eq k
        have hcursor : (s.buf k).readPos = (m.buf k).readPos := congrArg ResizeBuffer.readPos hview
        have hwraps : 2 ^ 64 ≤ (s.buf k).readPos + len.toNat := by
          rw [hcursor]
          exact Nat.not_lt.mp hnot
        rcases (h.rep k).read_wraps (h.readPos_lt k) hwraps with hne | hne
        · rw [hview] at hne
          exact hne hreply
        · rw [hview] at hne
          have hread := hshows.readPos_eq k
          simp only [stepBoth, Buffers.step, ByteLists.step, Function.update_self] at hread
          exact hne hread
    | append _ _ | rewind _ | rewindRead | popFront _ | «at» _ | renew _ => exact hnot trivial
  · intro hcounts
    obtain ⟨hreply, held', hagrees⟩ := h.step call hstart hcounts
    exact ⟨hreply, hagrees.shows⟩

/-- The histories from there on, by induction on the calls. -/
theorem Models.throughout_alike_iff {calls : List (ℕ × BufferOp)} (h : s.Models m)
    (hstarts : Throughout (fun m call ↦ (m.step call).2) ByteLists.Starts m calls) :
    Throughout stepBoth Alike (s, m) calls ↔
      Throughout (fun m call ↦ (m.step call).2) ByteLists.Counts m calls := by
  induction calls generalizing s m with
  | nil => exact Iff.rfl
  | cons call calls ih =>
      obtain ⟨held, hagrees⟩ := h
      rw [throughout_cons, throughout_cons, hagrees.alike_iff call hstarts.1]
      exact and_congr_right fun hcounts ↦ ih (hagrees.step call hstarts.1 hcounts).2 hstarts.2

end Buffers

/-- Whatever the buffers do in turn, they answer and show what lists of bytes
with a cursor would, exactly as long as no read counts past `size_t`. -/
theorem buffers_are_lists_iff (initialSize : ℕ → ℕ) (calls : List (ℕ × BufferOp))
    (hstarts : Throughout (fun m call ↦ (m.step call).2) ByteLists.Starts .initial calls) :
    Throughout Buffers.stepBoth Buffers.Alike (.initial initialSize, .initial) calls ↔
      Throughout (fun m call ↦ (m.step call).2) ByteLists.Counts .initial calls :=
  Buffers.Models.throughout_alike_iff ⟨[], Buffers.agrees_initial initialSize⟩ hstarts

theorem buffers_are_lists_reused :
    Throughout Buffers.stepBoth Buffers.Alike (.initial fun _ ↦ 64, .initial)
      [(0, .append [1, 2] fun _ ↦ 0), (0, .renew 64), (1, .append [3] fun _ ↦ 9), (1, .read 1)] :=
  (buffers_are_lists_iff (fun _ ↦ 64)
    [(0, .append [1, 2] fun _ ↦ 0), (0, .renew 64), (1, .append [3] fun _ ↦ 9), (1, .read 1)]
    (by simp [ByteLists.Starts, BufferOp.starts, ByteLists.step, BufferOp.lasts])).mpr
    ⟨trivial, trivial, trivial, show 0 + 1 < 2 ^ 64 by decide, trivial⟩

/-- One byte, read, and a read of `2 ^ 64 - 1` more: the sum is 0, and the read
takes what is not there. -/
theorem not_buffers_are_lists :
    ¬ Throughout Buffers.stepBoth Buffers.Alike (.initial fun _ ↦ 64, .initial)
      [(0, .append [7] fun _ ↦ 0), (0, .read 1), (0, .read 18446744073709551615)] := by
  intro h
  have hreply := h.2.2.1.1
  exact absurd hreply (by decide +kernel)

end WiseKernel.Net
