import Mathlib.Algebra.Group.Nat.Defs
import WiseKernel.Lib.Loans
import WiseKernel.Lib.Runs

/-!
# The buffer pools

`multiple_size_buffer_pool` keeps a `fixed_size_buffer_pool` for every power
of two from 64 bytes to 2 megabytes and makes larger blocks on demand.  A block
is known by its address, here its place among all blocks ever made; a block
that was released keeps its bytes.  The pools see that a block is in use, not by whom.
-/

namespace WiseKernel.Net

open WiseKernel.Lib

/-- `state_` of a block: `0x00`, `0x01` and `0x02`. -/
inductive BufferState
  | created
  | allocated
  | released
  deriving DecidableEq, Repr

/-- `fixed_size_buffer_pool::buffer`; `pool` is the place of its pool among the
pools, if it has one. -/
structure Buffer where
  pool : Option ℕ
  data : List UInt8
  state : BufferState
  hitCount : ℕ
  deriving DecidableEq, Repr

namespace Buffer

def capacity (blk : Buffer) : ℕ := blk.data.length

def markAllocated (blk : Buffer) : Buffer := { blk with state := .allocated }

def markReleased (blk : Buffer) : Buffer := { blk with state := .released }

def isAllocated (blk : Buffer) : Bool := blk.state == .allocated

def incHitCount (blk : Buffer) : Buffer := { blk with hitCount := blk.hitCount + 1 }

end Buffer

/-- `fixed_size_buffer_pool` with its `stat`. -/
structure FixedSizeBufferPool where
  length : ℕ
  blocks : List ℕ
  allocCount : UInt32
  osAllocCount : UInt32
  totalAllocCount : UInt32
  totalReleaseCount : UInt32
  deriving DecidableEq, Repr

def FixedSizeBufferPool.new (length : ℕ) : FixedSizeBufferPool := ⟨length, [], 0, 0, 0, 0⟩

/-- `multiple_size_buffer_pool`, and every block that was made. -/
structure BufferPool where
  pools : List FixedSizeBufferPool
  memory : List Buffer
  deriving DecidableEq, Repr

namespace BufferPool

/-- The exceptions of `release`. -/
inductive Error
  /-- `"block. null pointer"` -/
  | nullPointer
  /-- `"fixed_size_buffer_pool. different length block. size:{}"` -/
  | differentLength (size : ℕ)
  /-- `"fixed_size_buffer_pool. block is not allocated. size: {}"` -/
  | notAllocated (size : ℕ)
  deriving DecidableEq, Repr

def startPowerOf2 : ℕ := 6

def steps : ℕ := 16

/-- The loop of `init_pools`. -/
def initPools : ℕ → ℕ → List FixedSizeBufferPool
  | _, 0 => []
  | size, step + 1 => .new size :: initPools (size * 2) step

/-- The constructor. -/
def new : BufferPool := ⟨initPools (2 ^ startPowerOf2) steps, []⟩

/-- The lengths of the pools, which never change. -/
def lengths : List ℕ := new.pools.map FixedSizeBufferPool.length

/-- The capacity of a block that is handed out for a size. -/
def blockSize (requiredSize : ℕ) : ℕ := (lengths.find? (requiredSize ≤ ·)).getD requiredSize

/-- `fixed_size_buffer_pool::alloc` of the pool `f` at `i`; `garbage` is what
new memory holds. -/
def allocFixed (p : BufferPool) (i : ℕ) (f : FixedSizeBufferPool) (garbage : ℕ → UInt8) :
    ℕ × BufferPool :=
  let f := { f with allocCount := f.allocCount + 1, totalAllocCount := f.totalAllocCount + 1 }
  match f.blocks with
  | block :: blocks =>
      (block, ⟨p.pools.set i { f with blocks },
        p.memory.modify block fun blk ↦ blk.markAllocated.incHitCount⟩)
  | [] =>
      let f := { f with osAllocCount := f.osAllocCount + 1 }
      let bp : Buffer := ⟨some i, (List.range f.length).map garbage, .created, 0⟩
      (p.memory.length, ⟨p.pools.set i f, p.memory ++ [bp.markAllocated]⟩)

/-- The first pool whose blocks are large enough. -/
def servingPool (p : BufferPool) (requiredSize : ℕ) : Option ℕ :=
  (p.pools.zipIdx.find? fun f ↦ requiredSize ≤ f.1.length).map Prod.snd

/-- `multiple_size_buffer_pool::alloc`: a block of the first pool whose blocks are
large enough, or a block without a pool. -/
def alloc (p : BufferPool) (requiredSize : ℕ) (garbage : ℕ → UInt8) : ℕ × BufferPool :=
  match p.pools.zipIdx.find? fun f ↦ requiredSize ≤ f.1.length with
  | some (f, i) => p.allocFixed i f garbage
  | none =>
      let bp : Buffer := ⟨none, (List.range requiredSize).map garbage, .created, 0⟩
      (p.memory.length, { p with memory := p.memory ++ [bp] })

/-- `fixed_size_buffer_pool::release`. -/
def releaseFixed (p : BufferPool) (i : ℕ) (f : FixedSizeBufferPool) (block : ℕ) (blk : Buffer) :
    Except Error Unit × BufferPool :=
  if blk.capacity ≠ f.length then (.error (.differentLength blk.capacity), p)
  else if !blk.isAllocated then (.error (.notAllocated f.length), p)
  else
    let f := { f with
      allocCount := f.allocCount - 1
      totalReleaseCount := f.totalReleaseCount + 1
      blocks := f.blocks ++ [block] }
    (.ok (), ⟨p.pools.set i f, p.memory.modify block Buffer.markReleased⟩)

/-- `multiple_size_buffer_pool::release`; a block without a pool is the
caller's to delete. -/
def release (p : BufferPool) (block : Option ℕ) : Except Error Unit × BufferPool :=
  match block.bind fun b ↦ p.memory[b]?.map (b, ·) with
  | none => (.error .nullPointer, p)
  | some (b, blk) =>
      match blk.pool.bind fun i ↦ p.pools[i]?.map (i, ·) with
      | none => (.ok (), p)
      | some (i, f) => p.releaseFixed i f b blk

/-- `get_pool` of the block at an address. -/
def poolOf (p : BufferPool) (block : ℕ) : Option ℕ := p.memory[block]?.bind Buffer.pool

/-- Those of the addresses that are of the pool at `i`. -/
def heldOf (p : BufferPool) (held : List ℕ) (i : ℕ) : List ℕ :=
  held.filter fun b ↦ p.poolOf b = some i

/-! ## Addresses -/

section

variable {p p' : BufferPool} {held : List ℕ} {i b : ℕ}

theorem poolOf_modify (pools : List FixedSizeBufferPool) (block : ℕ) {g : Buffer → Buffer}
    (hg : ∀ blk, (g blk).pool = blk.pool) (b : ℕ) :
    poolOf ⟨pools, p.memory.modify block g⟩ b = p.poolOf b := by
  simp only [poolOf, List.getElem?_modify]
  cases p.memory[b]? with
  | none => rfl
  | some blk =>
      by_cases hb : block = b
      · simp [hb, hg]
      · simp [hb]

theorem poolOf_append (pools : List FixedSizeBufferPool) (blk : Buffer) (b : ℕ) :
    poolOf ⟨pools, p.memory ++ [blk]⟩ b =
      if b = p.memory.length then blk.pool else p.poolOf b := by
  simp only [poolOf]
  split_ifs with hb
  · simp [hb]
  · rcases Nat.lt_or_gt_of_ne hb with hlt | hgt
    · rw [List.getElem?_append_left hlt]
    · rw [List.getElem?_eq_none (by simp; omega), List.getElem?_eq_none (by omega)]

theorem poolOf_of_getElem? {blk : Buffer} (h : p.memory[b]? = some blk) :
    p.poolOf b = blk.pool := by
  simp [poolOf, h]

theorem lt_of_poolOf (h : p.poolOf b = some i) : b < p.memory.length := by
  by_contra hb
  simp [poolOf, List.getElem?_eq_none (Nat.not_lt.mp hb)] at h

theorem heldOf_congr (h : ∀ b ∈ held, p'.poolOf b = p.poolOf b) :
    p'.heldOf held i = p.heldOf held i := by
  apply List.filter_congr
  intro b hb
  rw [h b hb]

theorem heldOf_cons_of_eq (h : p.poolOf b = some i) :
    p.heldOf (b :: held) i = b :: p.heldOf held i := by
  simp [heldOf, h]

theorem heldOf_cons_of_ne (h : p.poolOf b ≠ some i) :
    p.heldOf (b :: held) i = p.heldOf held i := by
  simp [heldOf, h]

theorem mem_heldOf : b ∈ p.heldOf held i ↔ b ∈ held ∧ p.poolOf b = some i := by
  simp [heldOf]

end

/-! ## Accounts -/

/-- The pool `f` at `i` owns its blocks: those in its queue are idle, and those
of `held` are lent.  The counters are numbers modulo 2^32. -/
structure Balanced (p : BufferPool) (held : List ℕ) (i : ℕ) (f : FixedSizeBufferPool) :
    Prop where
  loans : Loans (fun b ↦ p.poolOf b = some i) f.blocks (p.heldOf held i)
  alloc_eq : f.allocCount = f.totalAllocCount - f.totalReleaseCount
  held_eq : f.allocCount = UInt32.ofNat (p.heldOf held i).length

/-- Every pool is balanced, and the blocks know their pool and their state. -/
structure Sound (p : BufferPool) (held : List ℕ) : Prop where
  nodup : held.Nodup
  made : ∀ b ∈ held, b < p.memory.length
  lengths_eq : p.pools.map FixedSizeBufferPool.length = lengths
  balanced : ∀ i f, p.pools[i]? = some f → p.Balanced held i f
  pooled : ∀ (b : ℕ) blk i, p.memory[b]? = some blk → blk.pool = some i →
    ∃ f, p.pools[i]? = some f ∧ blk.capacity = f.length ∧
      blk.state = if b ∈ held then .allocated else .released

section

variable {p p' : BufferPool} {held held' : List ℕ} {i j : ℕ} {f g : FixedSizeBufferPool}

/-- A pool whose blocks and loans did not change. -/
theorem Balanced.same (h : p.Balanced held j g)
    (hpool : ∀ b, p'.poolOf b = some j ↔ p.poolOf b = some j)
    (hheld : p'.heldOf held' j = p.heldOf held j) : p'.Balanced held' j g := by
  refine ⟨?_, h.alloc_eq, ?_⟩
  · rw [hheld]
    exact h.loans.congr hpool
  · rw [hheld]
    exact h.held_eq

/-- Another pool is put at one place, and the others stay. -/
theorem balanced_set {memory : List Buffer} (hi : p.pools[i]? = some f)
    (hthis : Balanced ⟨p.pools.set i g, memory⟩ held' i g)
    (hothers : ∀ j f', j ≠ i → p.pools[j]? = some f' →
      Balanced ⟨p.pools.set i g, memory⟩ held' j f') :
    ∀ j f', (p.pools.set i g)[j]? = some f' → Balanced ⟨p.pools.set i g, memory⟩ held' j f' := by
  intro j f' hj
  by_cases hij : j = i
  · subst hij
    rw [List.getElem?_set_self (List.getElem?_eq_some_iff.mp hi).1] at hj
    cases hj
    exact hthis
  · rw [List.getElem?_set_ne (Ne.symm hij)] at hj
    exact hothers j f' hij hj

/-- The pools are found where they were, with blocks of the same length. -/
theorem exists_pool_set (hi : p.pools[i]? = some f) (hlength : g.length = f.length)
    {f' : FixedSizeBufferPool} (hj : p.pools[j]? = some f') :
    ∃ g', (p.pools.set i g)[j]? = some g' ∧ g'.length = f'.length := by
  by_cases hij : j = i
  · subst hij
    rw [hi] at hj
    cases hj
    exact ⟨g, List.getElem?_set_self (List.getElem?_eq_some_iff.mp hi).1, hlength⟩
  · exact ⟨f', by rw [List.getElem?_set_ne (Ne.symm hij), hj], rfl⟩

theorem map_length_set (hi : p.pools[i]? = some f) (hlength : g.length = f.length) :
    (p.pools.set i g).map FixedSizeBufferPool.length =
      p.pools.map FixedSizeBufferPool.length := by
  obtain ⟨hlt, rfl⟩ := List.getElem?_eq_some_iff.mp hi
  rw [List.map_set, hlength]
  apply List.ext_getElem
  · simp
  · intro j hj hj'
    rw [List.getElem_set]
    split_ifs with hij
    · subst hij
      simp
    · rfl

theorem count_succ {a t r : UInt32} {n : ℕ} (h : a = t - r) (hn : a = UInt32.ofNat n) :
    a + 1 = t + 1 - r ∧ a + 1 = UInt32.ofNat (n + 1) := by
  constructor
  · rw [h]
    grind
  · rw [hn, UInt32.ofNat_add]
    rfl

theorem count_pred {a t r : UInt32} {n : ℕ} (h : a = t - r) (hn : a = UInt32.ofNat (n + 1)) :
    a - 1 = t - (r + 1) ∧ a - 1 = UInt32.ofNat n := by
  constructor
  · rw [h]
    grind
  · rw [hn, UInt32.ofNat_add]
    exact UInt32.add_sub_cancel _ _

/-- The first block of the queue is handed out. -/
theorem Sound.recycle (h : p.Sound held) (hi : p.pools[i]? = some f) {block : ℕ}
    {blocks : List ℕ} (hblocks : f.blocks = block :: blocks) :
    block ∉ held ∧
      Sound ⟨p.pools.set i { f with
          allocCount := f.allocCount + 1, totalAllocCount := f.totalAllocCount + 1, blocks },
        p.memory.modify block fun blk ↦ blk.markAllocated.incHitCount⟩ (block :: held) := by
  have hf := h.balanced i f hi
  have hloans := hf.loans
  rw [hblocks] at hloans
  have hpool : p.poolOf block = some i := (hloans.all_iff block).mpr (.inl List.mem_cons_self)
  have hout : block ∉ held := by
    intro hmem
    exact hloans.apart block List.mem_cons_self (mem_heldOf.mpr ⟨hmem, hpool⟩)
  have hsame (pools : List FixedSizeBufferPool) (b : ℕ) :
      poolOf ⟨pools, p.memory.modify block fun blk ↦ blk.markAllocated.incHitCount⟩ b =
        p.poolOf b :=
    poolOf_modify (g := fun blk ↦ blk.markAllocated.incHitCount) pools block (fun _ ↦ rfl) b
  refine ⟨hout, List.nodup_cons.mpr ⟨hout, h.nodup⟩, ?_, ?_, ?_, ?_⟩
  · intro b hb
    rw [List.length_modify]
    rcases List.mem_cons.mp hb with rfl | hb
    · exact lt_of_poolOf hpool
    · exact h.made b hb
  · refine (map_length_set hi ?_).trans h.lengths_eq
    rfl
  · apply balanced_set hi
    · have hheld (pools : List FixedSizeBufferPool) :
          heldOf ⟨pools, p.memory.modify block fun blk ↦ blk.markAllocated.incHitCount⟩
            (block :: held) i = block :: p.heldOf held i := by
        rw [heldOf_cons_of_eq ((hsame pools block).trans hpool),
          heldOf_congr fun b _ ↦ hsame pools b]
      obtain ⟨hcount, hcount'⟩ := count_succ hf.alloc_eq hf.held_eq
      refine ⟨?_, hcount, ?_⟩
      · rw [hheld]
        exact hloans.lend.congr fun b ↦ by rw [hsame]
      · rw [hheld]
        exact hcount'
    · intro j f' hij hj
      apply (h.balanced j f' hj).same
      · intro b
        rw [hsame]
      · rw [heldOf_cons_of_ne, heldOf_congr fun b _ ↦ hsame _ b]
        rw [hsame, hpool]
        exact fun heq ↦ hij (Option.some.inj heq).symm
  · intro b blk j hb hj
    rw [List.getElem?_modify] at hb
    obtain ⟨old, hold, rfl⟩ := Option.map_eq_some_iff.mp hb
    have hpool' : old.pool = some j := by
      split_ifs at hj <;> exact hj
    obtain ⟨f', hf', hcap, hstate⟩ := h.pooled b old j hold hpool'
    obtain ⟨g', hg', hlen⟩ := exists_pool_set (g := { f with
      allocCount := f.allocCount + 1, totalAllocCount := f.totalAllocCount + 1, blocks }) hi rfl hf'
    refine ⟨g', hg', ?_, ?_⟩
    · rw [hlen, ← hcap]
      split_ifs <;> rfl
    · by_cases hbb : block = b
      · simp [hbb, Buffer.markAllocated, Buffer.incHitCount]
      · have hbb' : b ≠ block := Ne.symm hbb
        simpa [hbb, hbb'] using hstate

theorem Sound.length_notMem (h : p.Sound held) : p.memory.length ∉ held := by
  intro hmem
  exact Nat.lt_irrefl _ (h.made _ hmem)

theorem Sound.made_append (h : p.Sound held) (blk : Buffer) :
    ∀ b ∈ p.memory.length :: held, b < (p.memory ++ [blk]).length := by
  intro b hb
  rw [List.length_append, List.length_singleton]
  rcases List.mem_cons.mp hb with rfl | hb
  · exact Nat.lt_succ_self _
  · exact Nat.lt_succ_of_lt (h.made b hb)

theorem Sound.poolOf_append (h : p.Sound held) (pools : List FixedSizeBufferPool) (blk : Buffer) :
    ∀ b ∈ held, poolOf ⟨pools, p.memory ++ [blk]⟩ b = p.poolOf b := by
  intro b hb
  rw [BufferPool.poolOf_append, if_neg (Nat.ne_of_lt (h.made b hb))]

theorem poolOf_length : p.poolOf p.memory.length = none := by
  simp [poolOf]

/-- What the blocks know, with one more of them. -/
theorem Sound.pooled_append (h : p.Sound held) {pools : List FixedSizeBufferPool} {blk : Buffer}
    (hpools : ∀ (j : ℕ) (f' : FixedSizeBufferPool), p.pools[j]? = some f' →
      ∃ g', pools[j]? = some g' ∧ g'.length = f'.length)
    (hblk : ∀ j : ℕ, blk.pool = some j →
      ∃ g', pools[j]? = some g' ∧ blk.capacity = g'.length ∧ blk.state = .allocated) :
    ∀ (b : ℕ) blk' j, (p.memory ++ [blk])[b]? = some blk' → blk'.pool = some j →
      ∃ g', pools[j]? = some g' ∧ blk'.capacity = g'.length ∧
        blk'.state = if b ∈ p.memory.length :: held then .allocated else .released := by
  intro b blk' j hb hj
  rcases Nat.lt_trichotomy b p.memory.length with hlt | rfl | hgt
  · rw [List.getElem?_append_left hlt] at hb
    obtain ⟨f', hf', hcap, hstate⟩ := h.pooled b blk' j hb hj
    obtain ⟨g', hg', hlen⟩ := hpools j f' hf'
    have hne : b ≠ p.memory.length := Nat.ne_of_lt hlt
    exact ⟨g', hg', hcap.trans hlen.symm, by simpa [hne] using hstate⟩
  · have hblk' : blk = blk' := by simpa using hb
    obtain ⟨g', hg', hcap, hstate⟩ := hblk j (by rw [hblk', hj])
    rw [← hblk']
    exact ⟨g', hg', hcap, by simpa using hstate⟩
  · rw [List.getElem?_eq_none (by simp; omega)] at hb
    cases hb

/-- A new block of a pool is handed out. -/
theorem Sound.make (h : p.Sound held) (hi : p.pools[i]? = some f) {blk : Buffer}
    (hpool : blk.pool = some i) (hcap : blk.capacity = f.length)
    (hstate : blk.state = .allocated) :
    Sound ⟨p.pools.set i { f with
        allocCount := f.allocCount + 1, totalAllocCount := f.totalAllocCount + 1
        osAllocCount := f.osAllocCount + 1 }, p.memory ++ [blk]⟩ (p.memory.length :: held) := by
  have hf := h.balanced i f hi
  have hnew (pools : List FixedSizeBufferPool) (j : ℕ) (b : ℕ) :
      poolOf ⟨pools, p.memory ++ [blk]⟩ b = some j ↔
        b = p.memory.length ∧ j = i ∨ p.poolOf b = some j := by
    rw [BufferPool.poolOf_append]
    split_ifs with hb
    · simp [hb, hpool, poolOf_length, eq_comm]
    · simp [hb]
  refine ⟨List.nodup_cons.mpr ⟨h.length_notMem, h.nodup⟩, ?_, ?_, ?_, ?_⟩
  · exact h.made_append blk
  · refine (map_length_set hi ?_).trans h.lengths_eq
    rfl
  · apply balanced_set hi
    · have hheld (pools : List FixedSizeBufferPool) :
          heldOf ⟨pools, p.memory ++ [blk]⟩ (p.memory.length :: held) i =
            p.memory.length :: p.heldOf held i := by
        rw [heldOf_cons_of_eq ((hnew pools i _).mpr (.inl ⟨rfl, rfl⟩)),
          heldOf_congr (h.poolOf_append pools blk)]
      obtain ⟨hcount, hcount'⟩ := count_succ hf.alloc_eq hf.held_eq
      refine ⟨?_, hcount, ?_⟩
      · rw [hheld]
        refine (hf.loans.lend_new ?_).congr fun b ↦ by simp [hnew]
        simp [poolOf_length]
      · rw [hheld]
        exact hcount'
    · intro j f' hij hj
      apply (h.balanced j f' hj).same
      · intro b
        simp [hnew, hij]
      · rw [heldOf_cons_of_ne, heldOf_congr (h.poolOf_append _ blk)]
        simp [hnew, hij, poolOf_length]
  · apply h.pooled_append
    · intro j f' hj
      exact exists_pool_set (g := { f with
        allocCount := f.allocCount + 1, totalAllocCount := f.totalAllocCount + 1
        osAllocCount := f.osAllocCount + 1 }) hi rfl hj
    · intro j hj
      obtain rfl : i = j := Option.some.inj (hpool.symm.trans hj)
      exact ⟨_, List.getElem?_set_self (List.getElem?_eq_some_iff.mp hi).1, hcap, hstate⟩

/-- A block without a pool is handed out. -/
theorem Sound.makeAlone (h : p.Sound held) {blk : Buffer} (hpool : blk.pool = none) :
    Sound { p with memory := p.memory ++ [blk] } (p.memory.length :: held) := by
  have hnew (b : ℕ) : poolOf { p with memory := p.memory ++ [blk] } b = p.poolOf b := by
    rw [BufferPool.poolOf_append]
    split_ifs with hb
    · rw [hb, hpool, poolOf_length]
    · rfl
  refine ⟨List.nodup_cons.mpr ⟨h.length_notMem, h.nodup⟩, h.made_append blk, h.lengths_eq, ?_, ?_⟩
  · intro j f' hj
    apply (h.balanced j f' hj).same
    · intro b
      rw [hnew]
    · rw [heldOf_cons_of_ne, heldOf_congr fun b _ ↦ hnew b]
      simp [hnew, poolOf_length]
  · apply h.pooled_append
    · intro j f' hj
      exact ⟨f', hj, rfl⟩
    · intro j hj
      rw [hpool] at hj
      cases hj

/-- A block in use goes back to its queue. -/
theorem Sound.takeBack (h : p.Sound held) (hi : p.pools[i]? = some f) {block : ℕ}
    (hpool : p.poolOf block = some i) (hblock : block ∈ held) :
    Sound ⟨p.pools.set i { f with
          allocCount := f.allocCount - 1, totalReleaseCount := f.totalReleaseCount + 1
          blocks := f.blocks ++ [block] },
        p.memory.modify block Buffer.markReleased⟩ (held.erase block) := by
  have hf := h.balanced i f hi
  have hsame (pools : List FixedSizeBufferPool) (b : ℕ) :
      poolOf ⟨pools, p.memory.modify block Buffer.markReleased⟩ b = p.poolOf b :=
    poolOf_modify (g := Buffer.markReleased) pools block (fun _ ↦ rfl) b
  have hlent : block ∈ p.heldOf held i := mem_heldOf.mpr ⟨hblock, hpool⟩
  have hheld (pools : List FixedSizeBufferPool) (j : ℕ) :
      heldOf ⟨pools, p.memory.modify block Buffer.markReleased⟩ (held.erase block) j =
        (p.heldOf held j).erase block := by
    rw [heldOf_congr fun b _ ↦ hsame pools b, heldOf, heldOf, List.erase_filter]
  refine ⟨h.nodup.erase block, ?_, ?_, ?_, ?_⟩
  · intro b hb
    rw [List.length_modify]
    exact h.made b (List.mem_of_mem_erase hb)
  · refine (map_length_set hi ?_).trans h.lengths_eq
    rfl
  · apply balanced_set hi
    · have hlen := List.length_erase_of_mem hlent
      have hpos : 0 < (p.heldOf held i).length := List.length_pos_of_mem hlent
      have hn : f.allocCount = UInt32.ofNat ((p.heldOf held i).length - 1 + 1) := by
        rw [Nat.sub_add_cancel hpos]
        exact hf.held_eq
      obtain ⟨hcount, hcount'⟩ := count_pred hf.alloc_eq hn
      refine ⟨?_, hcount, ?_⟩
      · rw [hheld]
        exact (hf.loans.giveBack hlent).congr fun b ↦ by rw [hsame]
      · rw [hheld, hlen]
        exact hcount'
    · intro j f' hij hj
      apply (h.balanced j f' hj).same
      · intro b
        rw [hsame]
      · rw [hheld]
        apply List.erase_of_not_mem
        intro hmem
        exact hij (Option.some.inj ((mem_heldOf.mp hmem).2.symm.trans hpool))
  · intro b blk j hb hj
    rw [List.getElem?_modify] at hb
    obtain ⟨old, hold, rfl⟩ := Option.map_eq_some_iff.mp hb
    have hpool' : old.pool = some j := by
      split_ifs at hj <;> exact hj
    obtain ⟨f', hf', hcap, hstate⟩ := h.pooled b old j hold hpool'
    obtain ⟨g', hg', hlen⟩ := exists_pool_set (g := { f with
      allocCount := f.allocCount - 1, totalReleaseCount := f.totalReleaseCount + 1
      blocks := f.blocks ++ [block] }) hi rfl hf'
    refine ⟨g', hg', ?_, ?_⟩
    · rw [hlen, ← hcap]
      split_ifs <;> rfl
    · by_cases hbb : block = b
      · simp [hbb, Buffer.markReleased, h.nodup.mem_erase_iff]
      · have hbb' : b ≠ block := Ne.symm hbb
        simpa [hbb, List.mem_erase_of_ne hbb'] using hstate

/-! ## What the operations do -/

/-- The bytes at an address. -/
def dataOf (p : BufferPool) (block : ℕ) : Option (List UInt8) := p.memory[block]?.map Buffer.data

theorem dataOf_modify (pools : List FixedSizeBufferPool) (block : ℕ) {g : Buffer → Buffer}
    (hg : ∀ blk, (g blk).data = blk.data) (b : ℕ) :
    dataOf ⟨pools, p.memory.modify block g⟩ b = p.dataOf b := by
  simp only [dataOf, List.getElem?_modify]
  cases p.memory[b]? with
  | none => rfl
  | some blk =>
      by_cases hb : block = b
      · simp [hb, hg]
      · simp [hb]

theorem dataOf_append (pools : List FixedSizeBufferPool) (blk : Buffer) {b : ℕ}
    (hb : b < p.memory.length) :
    dataOf ⟨pools, p.memory ++ [blk]⟩ b = p.dataOf b := by
  simp [dataOf, List.getElem?_append_left hb]

theorem dataOf_append_self (pools : List FixedSizeBufferPool) (blk : Buffer) :
    dataOf ⟨pools, p.memory ++ [blk]⟩ p.memory.length = some blk.data := by
  simp [dataOf]

/-- What `alloc` has to do: the block was nobody's, is large enough, and no
other block is written to. -/
structure Allocates (p : BufferPool) (held : List ℕ) (requiredSize : ℕ) (r : ℕ × BufferPool) :
    Prop where
  notMem : r.1 ∉ held
  sound : r.2.Sound (r.1 :: held)
  large : ∃ bytes, r.2.dataOf r.1 = some bytes ∧ bytes.length = blockSize requiredSize
  others : ∀ b ∈ held, r.2.dataOf b = p.dataOf b
  poolOf_eq : ∀ b ∈ held, r.2.poolOf b = p.poolOf b
  serving : r.2.poolOf r.1 = p.servingPool requiredSize

theorem allocFixed_cons {block : ℕ} {blocks : List ℕ} (h : f.blocks = block :: blocks)
    (garbage : ℕ → UInt8) :
    p.allocFixed i f garbage = (block, ⟨p.pools.set i { f with
        allocCount := f.allocCount + 1, totalAllocCount := f.totalAllocCount + 1, blocks },
      p.memory.modify block fun blk ↦ blk.markAllocated.incHitCount⟩) := by
  simp [allocFixed, h]

theorem allocFixed_nil (h : f.blocks = []) (garbage : ℕ → UInt8) :
    p.allocFixed i f garbage = (p.memory.length, ⟨p.pools.set i { f with
        allocCount := f.allocCount + 1, totalAllocCount := f.totalAllocCount + 1
        osAllocCount := f.osAllocCount + 1 },
      p.memory ++ [⟨some i, (List.range f.length).map garbage, .allocated, 0⟩]⟩) := by
  simp [allocFixed, h, Buffer.markAllocated]

theorem Sound.allocFixed (h : p.Sound held) (hi : p.pools[i]? = some f) {requiredSize : ℕ}
    (hsize : blockSize requiredSize = f.length) (hserving : p.servingPool requiredSize = some i)
    (garbage : ℕ → UInt8) :
    p.Allocates held requiredSize (p.allocFixed i f garbage) := by
  cases hblocks : f.blocks with
  | cons block blocks =>
      rw [allocFixed_cons hblocks]
      obtain ⟨hout, hsound⟩ := h.recycle hi hblocks
      have hpool : p.poolOf block = some i := by
        have hloans := (h.balanced i f hi).loans
        rw [hblocks] at hloans
        exact (hloans.all_iff block).mpr (.inl List.mem_cons_self)
      have hdata (pools : List FixedSizeBufferPool) (b : ℕ) :
          dataOf ⟨pools, p.memory.modify block fun blk ↦ blk.markAllocated.incHitCount⟩ b =
            p.dataOf b :=
        dataOf_modify (g := fun blk ↦ blk.markAllocated.incHitCount) pools block (fun _ ↦ rfl) b
      have hsame (pools : List FixedSizeBufferPool) (b : ℕ) :
          poolOf ⟨pools, p.memory.modify block fun blk ↦ blk.markAllocated.incHitCount⟩ b =
            p.poolOf b :=
        poolOf_modify (g := fun blk ↦ blk.markAllocated.incHitCount) pools block (fun _ ↦ rfl) b
      refine ⟨hout, hsound, ?_, fun b _ ↦ hdata _ b, fun b _ ↦ hsame _ b,
        (hsame _ block).trans (hpool.trans hserving.symm)⟩
      have hlt := lt_of_poolOf hpool
      obtain ⟨f', hf', hcap, -⟩ := h.pooled block p.memory[block] i
        (List.getElem?_eq_getElem hlt)
        ((poolOf_of_getElem? (List.getElem?_eq_getElem hlt)).symm.trans
          hpool)
      rw [hi] at hf'
      cases hf'
      refine ⟨p.memory[block].data, ?_, hcap.trans hsize.symm⟩
      rw [hdata, dataOf, List.getElem?_eq_getElem hlt, Option.map_some]
  | nil =>
      rw [allocFixed_nil hblocks]
      have hcap : (Buffer.mk (some i) ((List.range f.length).map garbage) .allocated 0).capacity =
          f.length := by simp [Buffer.capacity]
      refine ⟨h.length_notMem, h.make hi rfl hcap rfl, ?_, ?_, h.poolOf_append _ _, ?_⟩
      · exact ⟨_, dataOf_append_self _ _, hcap.trans hsize.symm⟩
      · intro b hb
        exact dataOf_append _ _ (h.made b hb)
      · rw [BufferPool.poolOf_append, if_pos rfl, hserving]

/-- The search of `alloc` looks at the lengths alone. -/
theorem Sound.blockSize_eq (h : p.Sound held) (requiredSize : ℕ) :
    blockSize requiredSize =
      ((p.pools.zipIdx.find? fun f ↦ requiredSize ≤ f.1.length).map fun f ↦ f.1.length).getD
        requiredSize := by
  have hzip : p.pools.zipIdx.map (fun f ↦ f.1.length) = lengths := by
    rw [← h.lengths_eq]
    conv_rhs => rw [← List.zipIdx_map_fst 0 p.pools, List.map_map]
    rfl
  rw [blockSize, ← hzip, List.find?_map]
  rfl

theorem le_blockSize (requiredSize : ℕ) : requiredSize ≤ blockSize requiredSize := by
  unfold blockSize
  cases hfind : lengths.find? (requiredSize ≤ ·) with
  | none => exact Nat.le_refl _
  | some length => simpa using List.find?_some hfind

/-- `alloc` never hands out a block that somebody holds. -/
theorem Sound.alloc (h : p.Sound held) (requiredSize : ℕ) (garbage : ℕ → UInt8) :
    p.Allocates held requiredSize (p.alloc requiredSize garbage) := by
  unfold BufferPool.alloc
  split
  · next f i hfind =>
      have hi : p.pools[i]? = some f :=
        List.mk_mem_zipIdx_iff_getElem?.mp (List.mem_of_find?_eq_some hfind)
      have hsize : blockSize requiredSize = f.length := by
        rw [h.blockSize_eq, hfind]
        rfl
      have hserving : p.servingPool requiredSize = some i := by
        rw [servingPool, hfind, Option.map_some]
      exact h.allocFixed hi hsize hserving garbage
  · next hfind =>
    refine ⟨h.length_notMem, h.makeAlone rfl, ?_, ?_, h.poolOf_append _ _, ?_⟩
    · refine ⟨_, dataOf_append_self _ _, ?_⟩
      rw [h.blockSize_eq, hfind]
      simp
    · intro b hb
      exact dataOf_append _ _ (h.made b hb)
    · rw [BufferPool.poolOf_append, if_pos rfl, servingPool, hfind, Option.map_none]

/-- What `alloc` does to the blocks in use, pool by pool. -/
theorem Sound.length_heldOf_alloc (h : p.Sound held) (requiredSize : ℕ) (garbage : ℕ → UInt8)
    (i : ℕ) :
    ((p.alloc requiredSize garbage).2.heldOf ((p.alloc requiredSize garbage).1 :: held) i).length =
      (p.heldOf held i).length + if p.servingPool requiredSize = some i then 1 else 0 := by
  have halloc := h.alloc requiredSize garbage
  have hkept := @heldOf_congr p (p.alloc requiredSize garbage).2 held i halloc.poolOf_eq
  split_ifs with hi
  · rw [heldOf_cons_of_eq (halloc.serving.trans hi), hkept, List.length_cons]
  · rw [heldOf_cons_of_ne (halloc.serving.trans_ne hi), hkept, Nat.add_zero]

/-- A block in use is given up. -/
theorem Sound.release_held (h : p.Sound held) {block : ℕ} (hblock : block ∈ held) :
    (p.release (some block)).1 = .ok () ∧
      (p.release (some block)).2.Sound (held.erase block) ∧
      ∀ b, (p.release (some block)).2.dataOf b = p.dataOf b := by
  have hlt := h.made block hblock
  have hblk := List.getElem?_eq_getElem hlt
  cases hpool : p.memory[block].pool with
  | none =>
      have hrelease : p.release (some block) = (.ok (), p) := by
        simp [BufferPool.release, hblk, hpool]
      have hnone : p.poolOf block = none := (poolOf_of_getElem? hblk).trans hpool
      rw [hrelease]
      refine ⟨rfl, ⟨h.nodup.erase block, ?_, h.lengths_eq, ?_, ?_⟩, fun _ ↦ rfl⟩
      · intro b hb
        exact h.made b (List.mem_of_mem_erase hb)
      · intro j f hj
        apply (h.balanced j f hj).same fun _ ↦ Iff.rfl
        rw [heldOf, heldOf, ← List.erase_filter]
        apply List.erase_of_not_mem
        intro hmem
        have hj' := (mem_heldOf.mp hmem).2
        rw [hnone] at hj'
        cases hj'
      · intro b blk j hb hj
        obtain ⟨f, hf, hcap, hstate⟩ := h.pooled b blk j hb hj
        refine ⟨f, hf, hcap, ?_⟩
        have hne : b ≠ block := by
          rintro rfl
          rw [poolOf_of_getElem? hb, hj] at hnone
          cases hnone
        simpa [List.mem_erase_of_ne hne] using hstate
  | some i =>
      obtain ⟨f, hf, hcap, hstate⟩ := h.pooled block _ i hblk hpool
      rw [if_pos hblock] at hstate
      have hrelease : p.release (some block) = (.ok (), ⟨p.pools.set i { f with
          allocCount := f.allocCount - 1, totalReleaseCount := f.totalReleaseCount + 1
          blocks := f.blocks ++ [block] }, p.memory.modify block Buffer.markReleased⟩) := by
        simp [BufferPool.release, hblk, hpool, hf, releaseFixed, hcap, Buffer.isAllocated, hstate]
      rw [hrelease]
      refine ⟨rfl, ?_, ?_⟩
      · exact h.takeBack hf ((poolOf_of_getElem? hblk).trans hpool) hblock
      · exact dataOf_modify (g := Buffer.markReleased) _ block fun _ ↦ rfl

/-- A block of a pool that nobody holds is refused. -/
theorem Sound.release_idle (h : p.Sound held) {block : ℕ} (hblock : block ∉ held)
    (hpool : p.poolOf block = some i) :
    ∃ f, p.pools[i]? = some f ∧ p.release (some block) = (.error (.notAllocated f.length), p) := by
  have hblk := List.getElem?_eq_getElem (lt_of_poolOf hpool)
  have hpool' := (poolOf_of_getElem? hblk).symm.trans hpool
  obtain ⟨f, hf, hcap, hstate⟩ := h.pooled block _ i hblk hpool'
  rw [if_neg hblock] at hstate
  refine ⟨f, hf, ?_⟩
  simp [BufferPool.release, hblk, hpool', hf, releaseFixed, hcap, Buffer.isAllocated, hstate]

/-- Releasing what is nobody's changes nothing. -/
theorem Sound.release_notMem (h : p.Sound held) {block : ℕ} (hblock : block ∉ held) :
    (p.release (some block)).2 = p := by
  cases hpool : p.poolOf block with
  | some i =>
      obtain ⟨f, -, hrelease⟩ := h.release_idle hblock hpool
      rw [hrelease]
  | none =>
      cases hblk : p.memory[block]? with
      | none => simp [BufferPool.release, hblk]
      | some blk =>
          have hnone : blk.pool = none := (poolOf_of_getElem? hblk).symm.trans hpool
          simp [BufferPool.release, hblk, hnone]

theorem sound_new : new.Sound [] := by
  refine ⟨List.nodup_nil, by simp, rfl, ?_, by simp [new]⟩
  have hempty (size n : ℕ) : ∀ f ∈ initPools size n, f.blocks = [] ∧ f.allocCount = 0 ∧
      f.totalAllocCount = 0 ∧ f.totalReleaseCount = 0 := by
    induction n generalizing size with
    | zero => simp [initPools]
    | succ n ih =>
        intro f hf
        rcases List.mem_cons.mp hf with rfl | hf
        · exact ⟨rfl, rfl, rfl, rfl⟩
        · exact ih _ f hf
  intro i f hi
  obtain ⟨hblocks, halloc, htotal, hrelease⟩ := hempty _ _ f (List.mem_of_getElem? hi)
  refine ⟨?_, ?_, ?_⟩
  · rw [hblocks]
    exact Loans.empty.congr fun b ↦ by simp [poolOf, new]
  · rw [halloc, htotal, hrelease]
    rfl
  · rw [halloc]
    rfl

/-- A release leaves every block where it belongs. -/
theorem poolOf_release (block : Option ℕ) (b : ℕ) :
    (p.release block).2.poolOf b = p.poolOf b := by
  unfold BufferPool.release
  split
  · rfl
  split
  · rfl
  unfold releaseFixed
  split_ifs
  · rfl
  · rfl
  · exact poolOf_modify (g := Buffer.markReleased) _ _ (fun _ ↦ rfl) b

end

/-! ## Holders -/

/-- The pools, and who holds which block: a holder is given a block by `alloc`,
and gives it up when it releases it. -/
structure World where
  pool : BufferPool
  holds : List (ℕ × ℕ)

namespace World

/-- The blocks that are in use. -/
def held (w : World) : List ℕ := w.holds.map Prod.snd

def initial : World := ⟨new, []⟩

end World

/-- A call of `alloc` or `release` by a holder, which may release any block. -/
inductive Op
  | alloc (holder requiredSize : ℕ) (garbage : ℕ → UInt8)
  | release (holder : ℕ) (block : Option ℕ)

namespace World

def step (w : World) : Op → World
  | .alloc holder requiredSize garbage =>
      let (b, p) := w.pool.alloc requiredSize garbage
      ⟨p, (holder, b) :: w.holds⟩
  | .release _ none => { w with pool := (w.pool.release none).2 }
  | .release holder (some b) =>
      match w.pool.release (some b) with
      | (.ok (), p) => ⟨p, w.holds.erase (holder, b)⟩
      | (.error _, p) => { w with pool := p }

/-- What the pools promise: a block that is handed out is nobody's and large
enough, the counters of every pool count its blocks in use, its queue holds the
others, and a release of one of these is refused. -/
structure Accounted (w : World) : Prop where
  apart : w.held.Nodup
  fresh : ∀ requiredSize garbage, (w.pool.alloc requiredSize garbage).1 ∉ w.held ∧
    ∃ bytes, (w.pool.alloc requiredSize garbage).2.dataOf
      (w.pool.alloc requiredSize garbage).1 = some bytes ∧ requiredSize ≤ bytes.length
  counted : ∀ i f, w.pool.pools[i]? = some f →
    f.allocCount = f.totalAllocCount - f.totalReleaseCount ∧
      f.allocCount.toNat = (w.pool.heldOf w.held i).length
  queued : ∀ i f, w.pool.pools[i]? = some f →
    f.blocks.Nodup ∧ ∀ b, b ∈ f.blocks ↔ w.pool.poolOf b = some i ∧ b ∉ w.held
  refused : ∀ b i, w.pool.poolOf b = some i → b ∉ w.held →
    ∃ f, w.pool.pools[i]? = some f ∧
      w.pool.release (some b) = (.error (.notAllocated f.length), w.pool)

/-- The pool that serves has had less than 2^32 - 1 blocks in use, and a block of a
pool that is in use is released by its holder. -/
def Admits (w : World) : Op → Prop
  | .alloc _ requiredSize _ => ∀ i, w.pool.servingPool requiredSize = some i →
      (w.pool.heldOf w.held i).length + 1 < 2 ^ 32
  | .release _ none => True
  | .release holder (some b) => ∀ i, b ∈ w.pool.heldOf w.held i → (holder, b) ∈ w.holds

/-- The pools are in order, and their counters have not come round. -/
structure Orderly (w : World) : Prop where
  sound : w.pool.Sound w.held
  few : ∀ i, (w.pool.heldOf w.held i).length < 2 ^ 32

variable {w : World}

theorem orderly_initial : initial.Orderly := by
  refine ⟨sound_new, ?_⟩
  intro i
  exact Nat.two_pow_pos 32

theorem Orderly.accounted (h : w.Orderly) : w.Accounted where
  apart := h.sound.nodup
  fresh requiredSize garbage := by
    have halloc := h.sound.alloc requiredSize garbage
    obtain ⟨bytes, hbytes, hlen⟩ := halloc.large
    refine ⟨halloc.notMem, bytes, hbytes, ?_⟩
    rw [hlen]
    exact le_blockSize requiredSize
  counted i f hi := by
    have hf := h.sound.balanced i f hi
    refine ⟨hf.alloc_eq, ?_⟩
    rw [hf.held_eq, UInt32.toNat_ofNat', Nat.mod_eq_of_lt (h.few i)]
  queued i f hi := by
    have hf := h.sound.balanced i f hi
    refine ⟨hf.loans.idle_nodup, ?_⟩
    intro b
    rw [hf.loans.mem_idle_iff, mem_heldOf]
    tauto
  refused b i hpool hb := h.sound.release_idle hb hpool

/-! ### One call -/

theorem held_erase {holds : List (ℕ × ℕ)} {holder b : ℕ} (hnodup : (holds.map Prod.snd).Nodup)
    (hmem : (holder, b) ∈ holds) :
    (holds.erase (holder, b)).map Prod.snd = (holds.map Prod.snd).erase b := by
  induction holds with
  | nil => cases hmem
  | cons hold holds ih =>
      obtain ⟨hnot, hrest⟩ := List.nodup_cons.mp hnodup
      by_cases hfirst : hold = (holder, b)
      · rw [hfirst, List.erase_cons_head, List.map_cons, List.erase_cons_head]
      · have hlater : (holder, b) ∈ holds := (List.mem_cons.mp hmem).resolve_left (Ne.symm hfirst)
        have hne : hold.2 ≠ b := by
          intro heq
          exact hnot (List.mem_map.mpr ⟨_, hlater, heq.symm⟩)
        rw [List.erase_cons_tail (by simpa using hfirst), List.map_cons, List.map_cons,
          List.erase_cons_tail (by simpa using hne), ih hrest hlater]

/-- The accepted release of a block in use, whoever calls. -/
theorem Orderly.step_release (h : w.Orderly) {holder b : ℕ} (hb : b ∈ w.held) :
    w.step (.release holder (some b)) =
        ⟨(w.pool.release (some b)).2, w.holds.erase (holder, b)⟩ ∧
      (w.pool.release (some b)).2.Sound (w.held.erase b) := by
  obtain ⟨hok, hsound, -⟩ := h.sound.release_held hb
  refine ⟨?_, hsound⟩
  have hrelease : w.pool.release (some b) = (.ok (), (w.pool.release (some b)).2) := by rw [← hok]
  rw [step, hrelease]

/-- The release of a block that nobody holds. -/
theorem Orderly.step_idle (h : w.Orderly) {holder b : ℕ} (hb : b ∉ w.held) :
    w.step (.release holder (some b)) = w := by
  have hpool := h.sound.release_notMem hb
  have hholds : w.holds.erase (holder, b) = w.holds := by
    apply List.erase_of_not_mem
    intro hmem
    exact hb (List.mem_map.mpr ⟨_, hmem, rfl⟩)
  cases hrelease : w.pool.release (some b) with
  | mk r p =>
      rw [hrelease] at hpool
      obtain rfl : p = w.pool := hpool
      cases r with
      | ok u => rw [step, hrelease, hholds]
      | error e => rw [step, hrelease]

/-- A block without a pool is released by another than its holder: nothing happens. -/
theorem Orderly.step_stranger (h : w.Orderly) {holder b : ℕ} (hpool : w.pool.poolOf b = none)
    (hholder : (holder, b) ∉ w.holds) (hb : b ∈ w.held) :
    w.step (.release holder (some b)) = w := by
  rw [(h.step_release hb).1, List.erase_of_not_mem hholder]
  have hlt := h.sound.made b hb
  have hblk := List.getElem?_eq_getElem hlt
  have hnone : w.pool.memory[b].pool = none := (poolOf_of_getElem? hblk).symm.trans hpool
  have hrelease : w.pool.release (some b) = (.ok (), w.pool) := by
    simp [BufferPool.release, hblk, hnone]
  rw [hrelease]

theorem Orderly.step (h : w.Orderly) {op : Op} (hadmits : w.Admits op) : (w.step op).Orderly := by
  cases op with
  | alloc holder requiredSize garbage =>
      refine ⟨(h.sound.alloc requiredSize garbage).sound, ?_⟩
      intro i
      have hcount := h.sound.length_heldOf_alloc requiredSize garbage i
      refine Nat.lt_of_le_of_lt (Nat.le_of_eq hcount) ?_
      split_ifs with hi
      · exact hadmits i hi
      · exact h.few i
  | release holder block =>
      cases block with
      | none => exact h
      | some b =>
          by_cases hb : b ∈ w.held
          · by_cases hholder : (holder, b) ∈ w.holds
            · obtain ⟨hstep, hsound⟩ := @Orderly.step_release _ h holder _ hb
              have hheld := held_erase h.sound.nodup hholder
              rw [hstep]
              refine ⟨?_, ?_⟩
              · change Sound _ ((w.holds.erase (holder, b)).map Prod.snd)
                rw [hheld]
                exact hsound
              · intro i
                change (heldOf _ ((w.holds.erase (holder, b)).map Prod.snd) i).length < _
                rw [hheld, heldOf_congr fun c _ ↦ poolOf_release (some b) c, heldOf,
                  ← List.erase_filter]
                exact Nat.lt_of_le_of_lt List.length_erase_le (h.few i)
            · cases hpool : w.pool.poolOf b with
              | none =>
                  rw [h.step_stranger hpool hholder hb]
                  exact h
              | some i => exact absurd (hadmits i (mem_heldOf.mpr ⟨hb, hpool⟩)) hholder
          · rw [h.step_idle hb]
            exact h

/-- A call that is not admitted breaks a promise at once: the counter comes
round, or a block in use is in the queue. -/
theorem Orderly.admits (h : w.Orderly) {op : Op} (haccounted : (w.step op).Accounted) :
    w.Admits op := by
  cases op with
  | alloc holder requiredSize garbage =>
      intro i hi
      have hcount := h.sound.length_heldOf_alloc requiredSize garbage i
      rw [if_pos hi] at hcount
      rw [← hcount]
      have hsound := (h.sound.alloc requiredSize garbage).sound
      have hlt : i < (w.pool.alloc requiredSize garbage).2.pools.length := by
        have hlengths := congrArg List.length (hsound.lengths_eq.trans h.sound.lengths_eq.symm)
        rw [List.length_map, List.length_map] at hlengths
        rw [hlengths]
        obtain ⟨⟨f, j⟩, hfind, rfl⟩ := Option.map_eq_some_iff.mp hi
        have hmem := List.mk_mem_zipIdx_iff_getElem?.mp (List.mem_of_find?_eq_some hfind)
        exact (List.getElem?_eq_some_iff.mp hmem).1
      have hcounted := (haccounted.counted i _ (List.getElem?_eq_getElem hlt)).2
      exact hcounted ▸ UInt32.toNat_lt _
  | release holder block =>
      cases block with
      | none => trivial
      | some b =>
          intro i hmem
          by_contra hholder
          obtain ⟨hb, hpool⟩ := mem_heldOf.mp hmem
          obtain ⟨hstep, hsound⟩ := @Orderly.step_release _ h holder _ hb
          rw [hstep, List.erase_of_not_mem hholder] at haccounted
          have hpool' := (poolOf_release (some b) b).trans hpool
          obtain ⟨f, hf, -⟩ := hsound.pooled b _ i
            (List.getElem?_eq_getElem (lt_of_poolOf hpool')) ((poolOf_of_getElem?
              (List.getElem?_eq_getElem (lt_of_poolOf hpool'))).symm.trans hpool')
          have hidle : b ∈ f.blocks := by
            rw [(hsound.balanced i f hf).loans.mem_idle_iff]
            refine ⟨hpool', ?_⟩
            intro hmem'
            exact (h.sound.nodup.mem_erase_iff.mp (mem_heldOf.mp hmem').1).1 rfl
          exact (((haccounted.queued i f hf).2 b).mp hidle).2 hb

end World

/-- The pools keep what they promise in every state of a history exactly if no
pool has 2^32 blocks in use and each block in use is released by its holder. -/
theorem blocks_accounted_iff (ops : List Op) :
    Throughout World.step (fun w op ↦ (w.step op).Accounted) .initial ops ↔
      Throughout World.step World.Admits .initial ops := by
  apply throughout_congr World.orderly_initial
  · intro w op h hadmits
    exact h.step hadmits
  · intro w op h
    exact ⟨h.admits, fun hadmits ↦ (h.step hadmits).accounted⟩

/-- The first holder releases its block, and once more when the second has it;
then the third gets it too. -/
theorem not_blocks_accounted :
    let w := List.foldl World.step .initial
      [.alloc 0 1 fun _ ↦ 0, .release 0 (some 0), .alloc 1 1 fun _ ↦ 0, .release 0 (some 0),
        .alloc 2 1 fun _ ↦ 0]
    w.holds = [(2, 0), (1, 0)] ∧ ¬ w.Accounted := by
  intro w
  have hholds : w.holds = [(2, 0), (1, 0)] := by decide +kernel
  refine ⟨hholds, fun haccounted ↦ ?_⟩
  have hapart := haccounted.apart
  rw [World.held, hholds] at hapart
  exact absurd hapart (by decide)

/-! ### The counters -/

/-- Blocks of 64 bytes are handed out and not given up. -/
def handOut (n : ℕ) : World :=
  (List.replicate n (Op.alloc 0 1 fun _ ↦ 0)).foldl World.step .initial

theorem handOut_succ (n : ℕ) : handOut (n + 1) = (handOut n).step (.alloc 0 1 fun _ ↦ 0) := by
  simp only [handOut, List.replicate_succ', List.foldl_append, List.foldl_cons, List.foldl_nil]

theorem pools_handOut (n : ℕ) :
    (handOut n).pool.Sound (handOut n).held ∧
      ∃ f rest, (handOut n).pool.pools = f :: rest ∧ f.length = 64 ∧ f.blocks = [] ∧
        ((handOut n).pool.heldOf (handOut n).held 0).length = n := by
  induction n with
  | zero => exact ⟨sound_new, _, _, rfl, rfl, rfl, rfl⟩
  | succ n ih =>
      rw [handOut_succ]
      generalize handOut n = w at ih
      obtain ⟨hsound, f, rest, hpools, hlength, hblocks, hcount⟩ := ih
      refine ⟨(hsound.alloc 1 fun _ ↦ 0).sound, ?_⟩
      have halloc : w.pool.alloc 1 (fun _ ↦ 0) = w.pool.allocFixed 0 f fun _ ↦ 0 := by
        simp [alloc, hpools, hlength, List.zipIdx_cons]
      have hserving : w.pool.servingPool 1 = some 0 := by
        simp [servingPool, hpools, hlength, List.zipIdx_cons]
      have hmore := hsound.length_heldOf_alloc 1 (fun _ ↦ 0) 0
      rw [if_pos hserving, hcount] at hmore
      have hpools' : (w.step (.alloc 0 1 fun _ ↦ 0)).pool.pools = { f with
          allocCount := f.allocCount + 1, totalAllocCount := f.totalAllocCount + 1
          osAllocCount := f.osAllocCount + 1 } :: rest := by
        simp only [World.step, halloc, allocFixed_nil hblocks, hpools, List.set_cons_zero]
      exact ⟨_, rest, hpools', hlength, hblocks, hmore⟩

/-- With 2^32 blocks of 64 bytes handed out, the counter stands at zero. -/
theorem allocCount_handOut :
    ((handOut (2 ^ 32)).pool.heldOf (handOut (2 ^ 32)).held 0).length = 2 ^ 32 ∧
      ∃ f, (handOut (2 ^ 32)).pool.pools[0]? = some f ∧ f.allocCount = 0 := by
  obtain ⟨hsound, f, rest, hpools, -, -, hcount⟩ := pools_handOut (2 ^ 32)
  generalize handOut (2 ^ 32) = w at hsound hpools hcount
  have hf : w.pool.pools[0]? = some f := by simp [hpools]
  refine ⟨hcount, f, hf, ?_⟩
  rw [(hsound.balanced 0 f hf).held_eq, hcount]
  decide

end BufferPool

end WiseKernel.Net
