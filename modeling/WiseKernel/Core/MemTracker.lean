import Mathlib.Algebra.BigOperators.Group.List.Basic
import Mathlib.Algebra.GroupWithZero.Nat
import WiseKernel.Lib.Table

/-!
# Memory statistics

The statistics are kept by size and by the checksum of the class name, and an
entry is erased as soon as its two counts meet.  Nothing is known of the
checksum, so that classes may collide.
-/

namespace WiseKernel.Core

open Lib

/-! ## The tracker -/

namespace MemTracker

/-- `alloc`. -/
structure Alloc where
  size : ℕ
  crc : UInt32
  deriving DecidableEq, Repr

/-- `size_stat`, with what `class_stat` has in addition. -/
structure Stat (δ : Type) where
  allocCount : ℕ := 0
  deallocCount : ℕ := 0
  size : ℕ
  cls : δ
  deriving DecidableEq, Repr

end MemTracker

open MemTracker in
structure MemTracker where
  allocs : Table ℕ Alloc := ∅
  sizeStats : Table ℕ (Stat Unit) := ∅
  classStats : Table UInt32 (Stat String) := ∅
  totalAlloc : ℕ := 0
  totalDealloc : ℕ := 0

namespace MemTracker

variable {K δ : Type} [DecidableEq K]

/-- A block of `on_alloc_locked`. -/
def addAlloc (stats : Table K (Stat δ)) (k : K) (size : ℕ) (cls : δ) : Table K (Stat δ) :=
  match stats.get? k with
  | none => stats.insert k { size := size, cls := cls, allocCount := 1 }
  | some stat => stats.insert k { stat with allocCount := stat.allocCount + 1 }

/-- A block of `on_dealloc_locked`; without an entry the end of the map would be
read, which is only asserted against. -/
def addDealloc (stats : Table K (Stat δ)) (k : K) : Option (Table K (Stat δ)) :=
  match stats.get? k with
  | none => none
  | some stat =>
      if stat.allocCount = stat.deallocCount + 1 then some (stats.erase k)
      else some (stats.insert k { stat with deallocCount := stat.deallocCount + 1 })

/-- The numbers of `report`. -/
structure Report where
  sizeStats : List (ℕ × ℕ)
  classStats : List (ℕ × ℕ × String)
  totalRemainBytes : ℕ
  totalAlloc : ℕ
  totalDealloc : ℕ
  deriving DecidableEq, Repr

def report (t : MemTracker) : Report where
  sizeStats := t.sizeStats.toList.map fun (_, ss) ↦ (ss.size, ss.allocCount - ss.deallocCount)
  classStats := t.classStats.toList.map
    fun (_, cs) ↦ (cs.size, cs.allocCount - cs.deallocCount, cs.cls)
  totalRemainBytes :=
    (t.sizeStats.toList.map fun (_, ss) ↦ ss.size * (ss.allocCount - ss.deallocCount)).sum
  totalAlloc := t.totalAlloc
  totalDealloc := t.totalDealloc

/-- What is pushed into `ops_`. -/
inductive RawOp
  | alloc (mem size : ℕ) (cls : String)
  | dealloc (mem : ℕ)
  deriving DecidableEq, Repr

section

variable (crc32 : String → UInt32)

def onAllocLocked (t : MemTracker) (mem size : ℕ) (cls : String) : MemTracker :=
  match t.allocs.get? mem with
  | some _ => t
  | none =>
      { allocs := t.allocs.insert mem ⟨size, crc32 cls⟩
        sizeStats := addAlloc t.sizeStats size size ()
        classStats := addAlloc t.classStats (crc32 cls) size cls
        totalAlloc := t.totalAlloc + size
        totalDealloc := t.totalDealloc }

def onDeallocLocked (t : MemTracker) (mem : ℕ) : Option MemTracker :=
  match t.allocs.get? mem with
  | none => some t
  | some ae =>
      match addDealloc t.sizeStats ae.size, addDealloc t.classStats ae.crc with
      | some sizeStats, some classStats =>
          some
            { allocs := t.allocs.erase mem
              sizeStats := sizeStats
              classStats := classStats
              totalAlloc := t.totalAlloc
              totalDealloc := t.totalDealloc + ae.size }
      | _, _ => none

def apply (t : MemTracker) : RawOp → Option MemTracker
  | .alloc mem size cls => some (t.onAllocLocked crc32 mem size cls)
  | .dealloc mem => t.onDeallocLocked mem

end

/-! ## Live allocations -/

structure Allocation where
  size : ℕ
  cls : String
  deriving DecidableEq, Repr

/-- An address that is live is not allocated again. -/
def track (live : Table ℕ Allocation) : RawOp → Table ℕ Allocation
  | .alloc mem size cls => live.emplace mem ⟨size, cls⟩
  | .dealloc mem => live.erase mem

/-- The allocations that are live after a history. -/
def live (ops : List RawOp) : Table ℕ Allocation := ops.foldl track ∅

/-- The live allocations with the given key. -/
def countOf (key : Allocation → K) (live : Table ℕ Allocation) (k : K) : ℕ :=
  live.toList.countP fun e ↦ key e.2 = k

def bytesOf (live : Table ℕ Allocation) : ℕ := (live.toList.map fun e ↦ e.2.size).sum

/-- The statistics by `key` tell of the allocations. -/
structure Counts (key : Allocation → K) (stats : Table K (Stat δ)) (live : Table ℕ Allocation) :
    Prop where
  entry : ∀ k, (∃ stat, stats.get? k = some stat) ↔ ∃ mem a, live.get? mem = some a ∧ key a = k
  count : ∀ k stat, stats.get? k = some stat →
    stat.allocCount = stat.deallocCount + countOf key live k

/-- The state of the tracker agrees with the live allocations. -/
structure Agrees (crc32 : String → UInt32) (t : MemTracker) (live : Table ℕ Allocation) :
    Prop where
  allocs : ∀ mem, t.allocs.get? mem = (live.get? mem).map fun a ↦ ⟨a.size, crc32 a.cls⟩
  sizeStats : Counts Allocation.size t.sizeStats live
  classStats : Counts (fun a ↦ crc32 a.cls) t.classStats live
  total : t.totalAlloc = t.totalDealloc + bytesOf live
  remain : (report t).totalRemainBytes = bytesOf live

/-! ## Counting by a key -/

section

variable {key : Allocation → K} {stats : Table K (Stat δ)} {live : Table ℕ Allocation} {mem : ℕ}
  {a : Allocation}

theorem countOf_pos_iff {k : K} :
    0 < countOf key live k ↔ ∃ mem a, live.get? mem = some a ∧ key a = k := by
  rw [countOf, List.countP_pos_iff]
  constructor
  · rintro ⟨⟨mem, a⟩, hmem, hkey⟩
    exact ⟨mem, a, Table.mem_toList.mp hmem, of_decide_eq_true hkey⟩
  · rintro ⟨mem, a, hget, hkey⟩
    exact ⟨(mem, a), Table.mem_toList.mpr hget, decide_eq_true hkey⟩

theorem countOf_insert (h : live.get? mem = none) (k : K) :
    countOf key (live.insert mem a) k = countOf key live k + if key a = k then 1 else 0 := by
  rw [countOf, Table.toList_insert, Table.erase_of_none h, List.countP_cons, countOf]
  simp only [decide_eq_true_eq]

theorem countOf_erase (h : live.get? mem = some a) (k : K) :
    countOf key live k = countOf key (live.erase mem) k + if key a = k then 1 else 0 := by
  rw [countOf, (Table.toList_perm_erase h).countP_eq, List.countP_cons, countOf]
  simp only [decide_eq_true_eq]

theorem bytesOf_insert (h : live.get? mem = none) :
    bytesOf (live.insert mem a) = bytesOf live + a.size := by
  rw [bytesOf, Table.toList_insert, Table.erase_of_none h, List.map_cons, List.sum_cons,
    Nat.add_comm, bytesOf]

theorem bytesOf_erase (h : live.get? mem = some a) :
    bytesOf live = bytesOf (live.erase mem) + a.size := by
  rw [bytesOf, ((Table.toList_perm_erase h).map _).sum_eq, List.map_cons, List.sum_cons,
    Nat.add_comm, bytesOf]

/-- There is an entry exactly where something is counted. -/
theorem counts_iff : Counts key stats live ↔
    ∀ k, match stats.get? k with
      | none => countOf key live k = 0
      | some stat => 0 < countOf key live k ∧
          stat.allocCount = stat.deallocCount + countOf key live k := by
  constructor
  · intro h k
    have hentry := h.entry k
    rw [← countOf_pos_iff] at hentry
    cases hstat : stats.get? k with
    | none =>
        rw [hstat] at hentry
        apply Nat.eq_zero_of_not_pos
        intro hpos
        obtain ⟨stat, hsome⟩ := hentry.mpr hpos
        cases hsome
    | some stat => exact ⟨hentry.mp ⟨stat, hstat⟩, h.count k stat hstat⟩
  · intro h
    constructor
    · intro k
      have hk := h k
      rw [← countOf_pos_iff]
      cases hstat : stats.get? k with
      | none =>
          rw [hstat] at hk
          simp [show countOf key live k = 0 from hk]
      | some stat =>
          rw [hstat] at hk
          exact iff_of_true ⟨stat, rfl⟩ hk.1
    · intro k stat hstat
      have hk := h k
      rw [hstat] at hk
      exact hk.2

theorem get?_addAlloc (stats : Table K (Stat δ)) (k : K) (size : ℕ) (cls : δ) :
    ∃ stat, stat.allocCount = ((stats.get? k).elim 0 Stat.allocCount) + 1 ∧
      stat.deallocCount = (stats.get? k).elim 0 Stat.deallocCount ∧
        stat.size = (stats.get? k).elim size Stat.size ∧
          addAlloc stats k size cls = stats.insert k stat := by
  rw [addAlloc]
  cases stats.get? k with
  | none => exact ⟨{ size := size, cls := cls, allocCount := 1 }, rfl, rfl, rfl, rfl⟩
  | some stat =>
      exact ⟨{ stat with allocCount := stat.allocCount + 1 }, rfl, rfl, rfl, rfl⟩

theorem Counts.addAlloc (h : Counts key stats live) (hmem : live.get? mem = none) (size : ℕ)
    (cls : δ) : Counts key (addAlloc stats (key a) size cls) (live.insert mem a) := by
  rw [counts_iff] at h ⊢
  intro k
  obtain ⟨stat, halloc, hdealloc, -, hstats⟩ := get?_addAlloc stats (key a) size cls
  rw [hstats, Table.get?_insert, countOf_insert hmem]
  have hk := h k
  by_cases hkey : k = key a
  · rw [hkey] at hk
    rw [hkey, if_pos rfl, if_pos rfl]
    dsimp only
    rw [halloc, hdealloc]
    cases hstat : stats.get? (key a) with
    | none =>
        rw [hstat] at hk
        have hzero : countOf key live (key a) = 0 := hk
        simp [hzero]
    | some old =>
        rw [hstat] at hk
        obtain ⟨hpos, hcount⟩ := hk
        refine ⟨Nat.succ_pos _, ?_⟩
        simp only [Option.elim_some]
        omega
  · rw [if_neg hkey, if_neg (Ne.symm hkey)]
    exact hk

/-- The entry is there, and it goes with the last allocation. -/
theorem Counts.addDealloc (h : Counts key stats live) (hmem : live.get? mem = some a) :
    ∃ stat, stats.get? (key a) = some stat ∧
      ∃ stats', addDealloc stats (key a) = some stats' ∧ Counts key stats' (live.erase mem) := by
  obtain ⟨stat, hstat⟩ := (h.entry (key a)).mpr ⟨mem, a, hmem, rfl⟩
  refine ⟨stat, hstat, ?_⟩
  have hcount := h.count (key a) stat hstat
  have hold : countOf key live (key a) = _ := countOf_erase hmem (key a)
  rw [if_pos rfl] at hold
  rw [counts_iff] at h
  rw [MemTracker.addDealloc, hstat]
  dsimp only
  split_ifs with hlast
  · refine ⟨_, rfl, counts_iff.mpr fun k ↦ ?_⟩
    have hk := h k
    rw [countOf_erase hmem] at hk
    rw [Table.get?_erase]
    by_cases hkey : k = key a
    · rw [hkey, if_pos rfl]
      dsimp only
      omega
    · rw [if_neg hkey]
      rw [if_neg (Ne.symm hkey)] at hk
      exact hk
  · refine ⟨_, rfl, counts_iff.mpr fun k ↦ ?_⟩
    have hk := h k
    rw [countOf_erase hmem] at hk
    rw [Table.get?_insert]
    by_cases hkey : k = key a
    · rw [hkey, if_pos rfl]
      dsimp only
      omega
    · rw [if_neg hkey]
      rw [if_neg (Ne.symm hkey)] at hk
      exact hk

end

/-! ## The bytes of the report -/

def remainOf (stats : Table ℕ (Stat Unit)) : ℕ :=
  (stats.toList.map fun (_, ss) ↦ ss.size * (ss.allocCount - ss.deallocCount)).sum

theorem remainOf_insert (stats : Table ℕ (Stat Unit)) (k : ℕ) (stat : Stat Unit) :
    remainOf (stats.insert k stat) =
      stat.size * (stat.allocCount - stat.deallocCount) + remainOf (stats.erase k) := by
  rw [remainOf, Table.toList_insert, List.map_cons, List.sum_cons, remainOf]

theorem remainOf_erase {stats : Table ℕ (Stat Unit)} {k : ℕ} {stat : Stat Unit}
    (h : stats.get? k = some stat) : remainOf stats =
      stat.size * (stat.allocCount - stat.deallocCount) + remainOf (stats.erase k) := by
  rw [remainOf, ((Table.toList_perm_erase h).map _).sum_eq, List.map_cons, List.sum_cons, remainOf]

/-- Every entry tells the size that it stands for. -/
def Sized (stats : Table ℕ (Stat Unit)) : Prop :=
  ∀ s stat, stats.get? s = some stat → stat.size = s

section

variable {stats : Table ℕ (Stat Unit)} {live : Table ℕ Allocation} {mem : ℕ} {a : Allocation}

theorem Sized.insert (h : Sized stats) {s : ℕ} {stat : Stat Unit} (hsize : stat.size = s) :
    Sized (stats.insert s stat) := by
  intro s' stat' hstat'
  rw [Table.get?_insert] at hstat'
  split_ifs at hstat' with heq
  · cases hstat'
    rw [hsize, heq]
  · exact h s' stat' hstat'

theorem Sized.addAlloc (h : Sized stats) (s : ℕ) : Sized (addAlloc stats s s ()) := by
  obtain ⟨stat, -, -, hsize, hstats⟩ := get?_addAlloc stats s s ()
  rw [hstats]
  apply h.insert
  cases hstat : stats.get? s with
  | none =>
      rw [hstat] at hsize
      exact hsize
  | some old =>
      rw [hstat] at hsize
      exact hsize.trans (h s old hstat)

theorem Sized.addDealloc (h : Sized stats) {s : ℕ} {stats' : Table ℕ (Stat Unit)}
    (hstats : addDealloc stats s = some stats') : Sized stats' := by
  rw [MemTracker.addDealloc] at hstats
  split at hstats
  · cases hstats
  next stat hstat =>
    split at hstats
    · cases hstats
      intro s' stat' hstat'
      rw [Table.get?_erase] at hstat'
      split_ifs at hstat'
      exact h s' stat' hstat'
    · cases hstats
      exact h.insert (h s stat hstat)

theorem remainOf_addAlloc (hsized : Sized stats) (h : Counts Allocation.size stats live) (s : ℕ) :
    remainOf (addAlloc stats s s ()) = remainOf stats + s := by
  obtain ⟨stat, halloc, hdealloc, hsize, hstats⟩ := get?_addAlloc stats s s ()
  rw [hstats, remainOf_insert]
  cases hstat : stats.get? s with
  | none =>
      rw [hstat] at halloc hdealloc hsize
      rw [halloc, hdealloc, hsize, Table.erase_of_none hstat]
      simp only [Option.elim_none]
      omega
  | some old =>
      rw [hstat] at halloc hdealloc hsize
      have hcount := h.count s old hstat
      have hless : old.allocCount + 1 - old.deallocCount =
          (old.allocCount - old.deallocCount) + 1 := by
        omega
      rw [halloc, hdealloc, hsize, remainOf_erase hstat]
      simp only [Option.elim_some]
      rw [hless, hsized s old hstat, Nat.mul_succ]
      omega

theorem remainOf_addDealloc (hsized : Sized stats) (h : Counts Allocation.size stats live)
    {s : ℕ} {stat : Stat Unit} (hstat : stats.get? s = some stat)
    {stats' : Table ℕ (Stat Unit)} (hstats : addDealloc stats s = some stats') :
    remainOf stats = remainOf stats' + s := by
  have hcount := h.count s stat hstat
  have hpos : 0 < countOf Allocation.size live s :=
    countOf_pos_iff.mpr ((h.entry s).mp ⟨stat, hstat⟩)
  rw [addDealloc, hstat] at hstats
  dsimp only at hstats
  rw [remainOf_erase hstat, hsized s stat hstat]
  split at hstats
  next hlast =>
    cases hstats
    have hone : stat.allocCount - stat.deallocCount = 1 := by omega
    rw [hone, Nat.mul_one, Nat.add_comm]
  next hmore =>
    cases hstats
    have hless : stat.allocCount - stat.deallocCount =
        (stat.allocCount - (stat.deallocCount + 1)) + 1 := by
      omega
    rw [remainOf_insert, hless, Nat.mul_succ]
    dsimp only
    rw [hsized s stat hstat]
    omega

end

/-! ## Histories -/

variable {crc32 : String → UInt32} {t : MemTracker} {live : Table ℕ Allocation}

/-- The invariant of the tracker. -/
structure Inv (crc32 : String → UInt32) (t : MemTracker) (live : Table ℕ Allocation) :
    Prop extends Agrees crc32 t live where
  sized : Sized t.sizeStats

theorem inv_empty : Inv crc32 {} ∅ := by
  have hcounts : ∀ {K δ : Type} [DecidableEq K] (key : Allocation → K),
      Counts (δ := δ) key ∅ ∅ := by
    intro K δ _ key
    exact counts_iff.mpr fun k ↦ rfl
  constructor
  · constructor
    · exact fun _ ↦ rfl
    · exact hcounts _
    · exact hcounts _
    · rfl
    · rfl
  · intro s stat hstat
    cases hstat

theorem Inv.onAllocLocked (h : Inv crc32 t live) (mem size : ℕ) (cls : String) :
    Inv crc32 (t.onAllocLocked crc32 mem size cls) (live.emplace mem ⟨size, cls⟩) := by
  have hallocs := h.allocs mem
  rw [MemTracker.onAllocLocked, Table.emplace]
  cases hmem : live.get? mem with
  | some a =>
      rw [hmem] at hallocs
      rw [hallocs]
      exact h
  | none =>
      rw [hmem, Option.map_none] at hallocs
      rw [hallocs, if_neg (by simp)]
      dsimp only
      have hbytes := bytesOf_insert (a := ⟨size, cls⟩) hmem
      constructor
      · constructor
        · intro mem'
          dsimp only
          rw [Table.get?_insert, Table.get?_insert]
          split_ifs
          · rfl
          · exact h.allocs mem'
        · exact h.sizeStats.addAlloc (a := ⟨size, cls⟩) hmem size ()
        · exact h.classStats.addAlloc (a := ⟨size, cls⟩) hmem size cls
        · have htotal := h.total
          rw [hbytes]
          dsimp only
          omega
        · have hremain := h.remain
          rw [hbytes, ← hremain]
          exact remainOf_addAlloc h.sized h.sizeStats size
      · exact h.sized.addAlloc size

/-- The lookups that are only asserted succeed. -/
theorem Inv.onDeallocLocked (h : Inv crc32 t live) (mem : ℕ) :
    ∃ t', t.onDeallocLocked mem = some t' ∧ Inv crc32 t' (live.erase mem) := by
  have hallocs := h.allocs mem
  rw [MemTracker.onDeallocLocked]
  cases hmem : live.get? mem with
  | none =>
      rw [hmem] at hallocs
      rw [hallocs, Table.erase_of_none hmem]
      exact ⟨t, rfl, h⟩
  | some a =>
      rw [hmem, Option.map_some] at hallocs
      rw [hallocs]
      obtain ⟨stat, hstat, sizeStats, hsizes, hsizeStats⟩ := h.sizeStats.addDealloc hmem
      obtain ⟨-, -, classStats, hclasses, hclassStats⟩ := h.classStats.addDealloc hmem
      dsimp only at hclasses ⊢
      rw [hsizes, hclasses]
      have hbytes := bytesOf_erase hmem
      refine ⟨_, rfl, ⟨?_, hsizeStats, hclassStats, ?_, ?_⟩, ?_⟩
      · intro mem'
        dsimp only
        rw [Table.get?_erase, Table.get?_erase]
        split_ifs
        · rfl
        · exact h.allocs mem'
      · have htotal := h.total
        dsimp only
        omega
      · have hremain : remainOf t.sizeStats = bytesOf live := h.remain
        have hless := remainOf_addDealloc h.sized h.sizeStats hstat hsizes
        have hremain' : remainOf sizeStats = bytesOf (live.erase mem) := by omega
        exact hremain'
      · exact h.sized.addDealloc hsizes

theorem Inv.apply (h : Inv crc32 t live) (op : RawOp) :
    ∃ t', t.apply crc32 op = some t' ∧ Inv crc32 t' (track live op) := by
  cases op with
  | alloc mem size cls => exact ⟨_, rfl, h.onAllocLocked mem size cls⟩
  | dealloc mem => exact h.onDeallocLocked mem

theorem Inv.foldlM (h : Inv crc32 t live) (ops : List RawOp) :
    ∃ t', ops.foldlM (MemTracker.apply crc32) t = some t' ∧
      Inv crc32 t' (ops.foldl track live) := by
  induction ops generalizing t live with
  | nil => exact ⟨t, rfl, h⟩
  | cons op ops ih =>
      obtain ⟨t₁, happly, hinv⟩ := h.apply op
      obtain ⟨t', hrest, hinv'⟩ := ih hinv
      refine ⟨t', ?_, hinv'⟩
      rw [List.foldlM_cons, happly]
      exact hrest

/-- After every history the statistics are those of the live allocations. -/
theorem agrees_live (crc32 : String → UInt32) (ops : List RawOp) :
    ∃ t : MemTracker, ops.foldlM (MemTracker.apply crc32) {} = some t ∧
      Agrees crc32 t (MemTracker.live ops) := by
  obtain ⟨t, hrun, hinv⟩ := inv_empty.foldlM ops
  exact ⟨t, hrun, hinv.toAgrees⟩

end MemTracker

end WiseKernel.Core
