import Mathlib.Algebra.Order.Group.Multiset
import Mathlib.Data.UInt
import Mathlib.Order.Interval.Finset.Nat
import WiseKernel.Lib.Threads

/-!
# The object pool

Threads call `create_raw` and `destroy`.  The queue and the two counters are touched
one after the other, `--pool_free_count_` after the `pop` and `++pool_free_count_`
after the `push`, so that between two steps the counters may even lie below zero.
-/

namespace WiseKernel.Core

open WiseKernel.Lib

/-! ## Steps -/

/-- `object_pool`, what its callers hold, the objects that `destroy` has put into the
queue, and the blocks that the allocator has handed out. -/
structure ObjectPool where
  name : String
  q : List ℕ := []
  freeCount : UInt64 := 0
  allocCount : UInt64 := 0
  held : List ℕ := []
  destroyed : List ℕ := []
  blocks : List ℕ := []
  deriving DecidableEq, Repr

namespace ObjectPool

/-- Between two steps of a call. -/
inductive Place
  | idle
  /-- `alloc` has popped an object -/
  | popped (obj : ℕ)
  /-- and has counted it as not free -/
  | taken (obj : ℕ)
  /-- `alloc` has found the queue empty -/
  | missed
  /-- and has a new block -/
  | allocated (obj : ℕ)
  /-- `dealloc` has counted the object as not allocated -/
  | leaving (obj : ℕ)
  /-- and has pushed it -/
  | pushed
  deriving DecidableEq, Repr

inductive Action
  | pop
  | decFree
  /-- `allocate`, which returns `obj` -/
  | allocate (obj : ℕ)
  /-- `++pool_alloc_count_`, the construction and the return of `create_raw` -/
  | incAlloc
  /-- `destroy` is called for `obj`: the destruction and `--pool_alloc_count_` -/
  | decAlloc (obj : ℕ)
  | push
  | incFree
  deriving DecidableEq, Repr

/-- The object gets to the caller. -/
def hand (s : ObjectPool) (obj : ℕ) : ObjectPool :=
  { s with allocCount := s.allocCount + 1, held := obj :: s.held }

/-- The step of a thread; `none` where it is elsewhere, where `obj` is no block that
the allocator may return, or where no caller holds it. -/
def step (s : ObjectPool) : Place → Action → Option (ObjectPool × Place)
  | .idle, .pop =>
      match s.q with
      | obj :: q => some ({ s with q := q }, .popped obj)
      | [] => some (s, .missed)
  | .popped obj, .decFree => some ({ s with freeCount := s.freeCount - 1 }, .taken obj)
  | .taken obj, .incAlloc => some (s.hand obj, .idle)
  | .missed, .allocate obj =>
      if 0 < obj ∧ obj < 2 ^ 64 ∧ obj ∉ s.blocks then
        some ({ s with blocks := obj :: s.blocks }, .allocated obj)
      else none
  | .allocated obj, .incAlloc => some (s.hand obj, .idle)
  | .idle, .decAlloc obj =>
      if obj ∈ s.held then
        some ({ s with allocCount := s.allocCount - 1, held := s.held.erase obj }, .leaving obj)
      else none
  | .leaving obj, .push =>
      some ({ s with q := s.q ++ [obj], destroyed := obj :: s.destroyed }, .pushed)
  | .pushed, .incFree => some ({ s with freeCount := s.freeCount + 1 }, .idle)
  | _, _ => none

/-- `cleanup`, which the destructor calls. -/
def cleanup (s : ObjectPool) : Except String ObjectPool :=
  if s.allocCount > 0 then
    .error ("object_pool: " ++ s.name ++ ". " ++ toString s.allocCount ++ " objects not freed.")
  else .ok { s with q := [], blocks := s.blocks.filter fun obj ↦ obj ∉ s.q }

/-! ## What the calls have -/

/-- The object in the hands of a call. -/
def Place.objects : Place → Multiset ℕ
  | .popped obj | .taken obj | .allocated obj | .leaving obj => {obj}
  | .idle | .missed | .pushed => 0

/-- Objects that are counted as free and are no more in the queue. -/
def Place.gone : Place → ℕ
  | .popped _ => 1
  | _ => 0

/-- Objects in the queue that are not counted as free. -/
def Place.uncounted : Place → ℕ
  | .pushed => 1
  | _ => 0

variable {ι : Type} [Fintype ι] [DecidableEq ι]

/-- What callers hold, from the `pop` or the `allocate` of `create_raw` to the `push`
of `destroy`. -/
def holdings (t : Threads ι ObjectPool Place) : Multiset ℕ :=
  t.shared.held + Threads.sum Place.objects t.place

/-- The blocks are in the queue or held, each once, and the counters are wrong by what
the calls are about to count. -/
structure Inv (t : Threads ι ObjectPool Place) : Prop where
  blocks : (t.shared.q : Multiset ℕ) + holdings t = t.shared.blocks
  nodup : t.shared.blocks.Nodup
  range : ∀ obj ∈ t.shared.blocks, 0 < obj ∧ obj < 2 ^ 64
  destroyed : ∀ obj ∈ t.shared.destroyed, obj ∈ t.shared.blocks
  alloc : t.shared.allocCount = UInt64.ofNat t.shared.held.length
  free : t.shared.freeCount + UInt64.ofNat (Threads.sum Place.uncounted t.place) =
    UInt64.ofNat (t.shared.q.length + Threads.sum Place.gone t.place)

/-! ## What a step can do -/

inductive Moves (s : ObjectPool) : Place → Action → ObjectPool → Place → Prop
  | popped (obj : ℕ) (q : List ℕ) : s.q = obj :: q →
      Moves s .idle .pop { s with q := q } (.popped obj)
  | missed : s.q = [] → Moves s .idle .pop s .missed
  | taken (obj : ℕ) :
      Moves s (.popped obj) .decFree { s with freeCount := s.freeCount - 1 } (.taken obj)
  | allocated (obj : ℕ) : 0 < obj → obj < 2 ^ 64 → obj ∉ s.blocks →
      Moves s .missed (.allocate obj) { s with blocks := obj :: s.blocks } (.allocated obj)
  | handed (obj : ℕ) (p : Place) : p = .taken obj ∨ p = .allocated obj →
      Moves s p .incAlloc (s.hand obj) .idle
  | leaving (obj : ℕ) : obj ∈ s.held →
      Moves s .idle (.decAlloc obj)
        { s with allocCount := s.allocCount - 1, held := s.held.erase obj } (.leaving obj)
  | pushed (obj : ℕ) :
      Moves s (.leaving obj) .push
        { s with q := s.q ++ [obj], destroyed := obj :: s.destroyed } .pushed
  | counted : Moves s .pushed .incFree { s with freeCount := s.freeCount + 1 } .idle

variable {s s' : ObjectPool} {p p' : Place} {a : Action}

theorem moves_of_step (h : s.step p a = some (s', p')) : Moves s p a s' p' := by
  cases p with
  | idle =>
      cases a with
      | pop =>
          simp only [step] at h
          split at h
          next obj q hq =>
            cases h
            exact .popped obj q hq
          next hq =>
            cases h
            exact .missed hq
      | decAlloc obj =>
          simp only [step] at h
          split_ifs at h with hmem
          cases h
          exact .leaving obj hmem
      | decFree | allocate _ | incAlloc | push | incFree => cases h
  | popped obj =>
      cases a with
      | decFree =>
          cases h
          exact .taken obj
      | pop | allocate _ | incAlloc | decAlloc _ | push | incFree => cases h
  | taken obj =>
      cases a with
      | incAlloc =>
          cases h
          exact .handed obj _ (.inl rfl)
      | pop | decFree | allocate _ | decAlloc _ | push | incFree => cases h
  | missed =>
      cases a with
      | allocate obj =>
          simp only [step] at h
          split_ifs at h with hfree
          cases h
          exact .allocated obj hfree.1 hfree.2.1 hfree.2.2
      | pop | decFree | incAlloc | decAlloc _ | push | incFree => cases h
  | allocated obj =>
      cases a with
      | incAlloc =>
          cases h
          exact .handed obj _ (.inr rfl)
      | pop | decFree | allocate _ | decAlloc _ | push | incFree => cases h
  | leaving obj =>
      cases a with
      | push =>
          cases h
          exact .pushed obj
      | pop | decFree | allocate _ | incAlloc | decAlloc _ | incFree => cases h
  | pushed =>
      cases a with
      | incFree =>
          cases h
          exact .counted
      | pop | decFree | allocate _ | incAlloc | decAlloc _ | push => cases h

/-! ## The invariant -/

variable {t : Threads ι ObjectPool Place} {i : ι}

/-- Objects only move between the queue, the callers and the calls. -/
theorem Inv.blocks_next (h : Inv t) (new : List ℕ)
    (hmove : (s'.q : Multiset ℕ) + s'.held + p'.objects =
      t.shared.q + t.shared.held + (t.place i).objects + new) :
    (s'.q : Multiset ℕ) + holdings ⟨s', Function.update t.place i p'⟩ =
      new + t.shared.blocks := by
  have hsum := Threads.sum_update Place.objects t.place i p'
  have hblocks := h.blocks
  apply add_right_cancel (b := (t.place i).objects)
  rw [← hblocks]
  calc (s'.q : Multiset ℕ) + (s'.held + Threads.sum Place.objects (Function.update t.place i p')) +
        (t.place i).objects
      = s'.q + s'.held + (Threads.sum Place.objects (Function.update t.place i p') +
          (t.place i).objects) := by simp only [add_assoc]
    _ = s'.q + s'.held + p'.objects + Threads.sum Place.objects t.place := by
          rw [hsum]
          ac_rfl
    _ = new + (t.shared.q + (t.shared.held + Threads.sum Place.objects t.place)) +
          (t.place i).objects := by
          rw [hmove]
          ac_rfl

/-- Every step changes the counter by as much as it changes what is to be counted. -/
theorem Inv.free_next (h : Inv t)
    (hmove : s'.freeCount + UInt64.ofNat (p'.uncounted + t.shared.q.length + (t.place i).gone) =
      t.shared.freeCount + UInt64.ofNat ((t.place i).uncounted + s'.q.length + p'.gone)) :
    s'.freeCount +
        UInt64.ofNat (Threads.sum Place.uncounted (Function.update t.place i p')) =
      UInt64.ofNat
        (s'.q.length + Threads.sum Place.gone (Function.update t.place i p')) := by
  have huncounted := congrArg UInt64.ofNat (Threads.sum_update Place.uncounted t.place i p')
  have hgone := congrArg UInt64.ofNat (Threads.sum_update Place.gone t.place i p')
  have hfree := h.free
  simp only [UInt64.ofNat_add] at *
  grind

/-- A step that takes no block from the allocator. -/
theorem Inv.next (h : Inv t) (hblocks : s'.blocks = t.shared.blocks)
    (hdestroyed : ∀ obj ∈ s'.destroyed, obj ∈ t.shared.blocks)
    (halloc : s'.allocCount = UInt64.ofNat s'.held.length)
    (hmove : (s'.q : Multiset ℕ) + s'.held + p'.objects =
      t.shared.q + t.shared.held + (t.place i).objects)
    (hfree : s'.freeCount + UInt64.ofNat (p'.uncounted + t.shared.q.length + (t.place i).gone) =
      t.shared.freeCount + UInt64.ofNat ((t.place i).uncounted + s'.q.length + p'.gone)) :
    Inv ⟨s', Function.update t.place i p'⟩ := by
  have hnew : (s'.q : Multiset ℕ) + holdings ⟨s', Function.update t.place i p'⟩ =
      ([] : List ℕ) + t.shared.blocks := by
    apply h.blocks_next
    rw [hmove]
    simp
  constructor
  · rw [hblocks, hnew, Multiset.coe_nil, zero_add]
  · rw [hblocks]
    exact h.nodup
  · rw [hblocks]
    exact h.range
  · rw [hblocks]
    exact hdestroyed
  · exact halloc
  · exact h.free_next hfree

theorem Inv.mem_blocks (h : Inv t) {obj : ℕ} (hobj : obj ∈ (t.place i).objects) :
    obj ∈ t.shared.blocks := by
  have hsum : obj ∈ Threads.sum Place.objects t.place :=
    Multiset.mem_sum.mpr ⟨i, Finset.mem_univ i, hobj⟩
  rw [← Multiset.mem_coe, ← h.blocks]
  exact Multiset.mem_add.mpr (.inr (Multiset.mem_add.mpr (.inr hsum)))

theorem Inv.step (h : Inv t) (hstep : t.shared.step (t.place i) a = some (s', p')) :
    Inv ⟨s', Function.update t.place i p'⟩ := by
  have hmoves := moves_of_step hstep
  generalize hplace : t.place i = p at hmoves
  cases hmoves with
  | popped obj q hq =>
      refine h.next rfl h.destroyed h.alloc ?_ ?_
      · rw [hplace, hq, ← Multiset.cons_coe, ← Multiset.singleton_add]
        simp only [Place.objects]
        ac_rfl
      · rw [hplace, hq]
        simp [Place.uncounted, Place.gone]
  | missed hq =>
      refine h.next rfl h.destroyed h.alloc ?_ ?_
      · rw [hplace]
        rfl
      · rw [hplace]
        rfl
  | taken obj =>
      refine h.next rfl h.destroyed h.alloc ?_ ?_
      · rw [hplace]
        rfl
      · rw [hplace]
        simp only [Place.uncounted, Place.gone, UInt64.ofNat_add]
        grind
  | allocated obj hpos hlt hnew =>
      have hmove : (t.shared.q : Multiset ℕ) + t.shared.held + {obj} =
          t.shared.q + t.shared.held + (t.place i).objects + ([obj] : List ℕ) := by
        rw [hplace]
        simp [Place.objects]
      have hblocks : (t.shared.q : Multiset ℕ) +
          holdings ⟨{ t.shared with blocks := obj :: t.shared.blocks },
            Function.update t.place i (.allocated obj)⟩ = ([obj] : List ℕ) + t.shared.blocks :=
        h.blocks_next [obj] hmove
      constructor
      · rw [hblocks]
        rfl
      · exact List.nodup_cons.mpr ⟨hnew, h.nodup⟩
      · intro other hother
        rcases List.mem_cons.mp hother with rfl | hother
        · exact ⟨hpos, hlt⟩
        · exact h.range other hother
      · exact fun other hother ↦ List.mem_cons_of_mem obj (h.destroyed other hother)
      · exact h.alloc
      · refine h.free_next (i := i) ?_
        rw [hplace]
        rfl
  | handed obj _ hp =>
      have halloc := h.alloc
      refine h.next rfl h.destroyed ?_ ?_ ?_
      · simp only [hand, List.length_cons, UInt64.ofNat_add, halloc]
        rfl
      · rw [hplace, hand, ← Multiset.cons_coe, ← Multiset.singleton_add]
        rcases hp with rfl | rfl
        · simp only [Place.objects]
          ac_rfl
        · simp only [Place.objects]
          ac_rfl
      · rw [hplace]
        rcases hp with rfl | rfl
        · rfl
        · rfl
  | leaving obj hmem =>
      have halloc := h.alloc
      have hlength := List.length_erase_add_one hmem
      refine h.next rfl h.destroyed ?_ ?_ ?_
      · rw [← hlength, UInt64.ofNat_add] at halloc
        simp only [halloc]
        grind
      · have hperm := Multiset.coe_eq_coe.mpr (List.perm_cons_erase hmem)
        rw [hplace, hperm, ← Multiset.cons_coe, ← Multiset.singleton_add]
        simp only [Place.objects]
        ac_rfl
      · rw [hplace]
        rfl
  | pushed obj =>
      refine h.next rfl ?_ h.alloc ?_ ?_
      · intro other hother
        rcases List.mem_cons.mp hother with rfl | hother
        · apply h.mem_blocks (i := i)
          rw [hplace]
          exact Multiset.mem_singleton_self other
        · exact h.destroyed other hother
      · rw [hplace, ← Multiset.coe_add, Multiset.coe_singleton]
        simp only [Place.objects]
        ac_rfl
      · rw [hplace]
        simp only [Place.uncounted, Place.gone, List.length_append, List.length_singleton]
        grind
  | counted =>
      refine h.next rfl h.destroyed h.alloc ?_ ?_
      · rw [hplace]
        rfl
      · rw [hplace]
        simp only [Place.uncounted, Place.gone, UInt64.ofNat_add]
        grind

/-! ## Whole runs -/

/-- The pool before any call. -/
def start (name : String) : Threads ι ObjectPool Place := ⟨{ name := name }, fun _ ↦ .idle⟩

theorem inv_start (name : String) : Inv (start (ι := ι) name) := by
  have hobjects : Threads.sum Place.objects (start (ι := ι) name).place = 0 :=
    Threads.sum_eq_zero fun _ ↦ rfl
  have huncounted : Threads.sum Place.uncounted (start (ι := ι) name).place = 0 :=
    Threads.sum_eq_zero fun _ ↦ rfl
  have hgone : Threads.sum Place.gone (start (ι := ι) name).place = 0 :=
    Threads.sum_eq_zero fun _ ↦ rfl
  constructor
  · rw [holdings, hobjects]
    rfl
  · exact List.nodup_nil
  · exact nofun
  · exact nofun
  · rfl
  · rw [huncounted, hgone]
    rfl

theorem inv_of_reaches {name : String}
    (h : Reaches (Threads.next ObjectPool.step) (fun _ _ ↦ True) (start name) t) : Inv t := by
  refine h.invariant (inv_start name) ?_
  rintro t ⟨i, a⟩ t' hinv - hnext
  obtain ⟨s, p, hstep, rfl⟩ := Threads.next_eq_some hnext
  exact hinv.step hstep

theorem length_lt_of_nodup {l : List ℕ} (hl : l.Nodup) {n : ℕ} (hn : 0 < n)
    (hrange : ∀ k ∈ l, 0 < k ∧ k < n) : l.length < n := by
  have hsub : l.toFinset ⊆ Finset.Ioo 0 n := by
    intro k hk
    exact Finset.mem_Ioo.mpr (hrange k (List.mem_toFinset.mp hk))
  have hcard := Finset.card_le_card hsub
  rw [List.toFinset_card_of_nodup hl, Nat.card_Ioo] at hcard
  omega

/-- There are not so many blocks that a counter could pass its range. -/
theorem Inv.lengths_lt (h : Inv t) :
    t.shared.q.length < 2 ^ 64 ∧ t.shared.held.length < 2 ^ 64 := by
  have hblocks := length_lt_of_nodup h.nodup (by decide) h.range
  have hcard := congrArg Multiset.card h.blocks
  rw [holdings] at hcard
  simp only [Multiset.card_add, Multiset.coe_card] at hcard
  omega

theorem toNat_ofNat_of_lt {n : ℕ} (h : n < 2 ^ 64) : (UInt64.ofNat n).toNat = n := by
  rw [UInt64.toNat_ofNat', Nat.mod_eq_of_lt h]

theorem cleanup_eq_error_iff (s : ObjectPool) :
    (∃ e, s.cleanup = .error e) ↔ s.allocCount > 0 := by
  rw [cleanup]
  split
  next hpos => exact iff_of_true ⟨_, rfl⟩ hpos
  next hzero => exact iff_of_false nofun hzero

/-- An object is in the queue or held, and by one caller only; an object that was
destroyed is in the queue or held again; and between the calls the counters tell of the
queue and the callers, so that `cleanup` throws if an object is not back. -/
theorem pool_of_reaches (name : String) (t : Threads ι ObjectPool Place)
    (h : Reaches (Threads.next ObjectPool.step) (fun _ _ ↦ True) (start name) t) :
    ((t.shared.q : Multiset ℕ) + holdings t).Nodup ∧
    (∀ obj ∈ t.shared.destroyed, obj ∈ t.shared.q ∨ obj ∈ holdings t) ∧
    ((∀ i, t.place i = .idle) →
      holdings t = t.shared.held ∧
      t.shared.allocCount.toNat = t.shared.held.length ∧
      t.shared.freeCount.toNat = t.shared.q.length ∧
      ((∃ e, t.shared.cleanup = .error e) ↔ t.shared.held ≠ [])) := by
  have hinv := inv_of_reaches h
  refine ⟨?_, ?_, ?_⟩
  · rw [hinv.blocks]
    exact Multiset.coe_nodup.mpr hinv.nodup
  · intro obj hobj
    have hmem := Multiset.mem_coe.mpr (hinv.destroyed obj hobj)
    rw [← hinv.blocks] at hmem
    exact Multiset.mem_add.mp hmem
  · intro hidle
    obtain ⟨hq, hheld⟩ := hinv.lengths_lt
    have hobjects : Threads.sum Place.objects t.place = 0 :=
      Threads.sum_eq_zero fun i ↦ by rw [hidle i]; rfl
    have huncounted : Threads.sum Place.uncounted t.place = 0 :=
      Threads.sum_eq_zero fun i ↦ by rw [hidle i]; rfl
    have hgone : Threads.sum Place.gone t.place = 0 :=
      Threads.sum_eq_zero fun i ↦ by rw [hidle i]; rfl
    have halloc : t.shared.allocCount.toNat = t.shared.held.length := by
      rw [hinv.alloc, toNat_ofNat_of_lt hheld]
    have hfree : t.shared.freeCount = UInt64.ofNat t.shared.q.length := by
      have hcounts := hinv.free
      rw [huncounted, hgone] at hcounts
      simpa using hcounts
    refine ⟨?_, halloc, ?_, ?_⟩
    · rw [holdings, hobjects, add_zero]
    · rw [hfree, toNat_ofNat_of_lt hq]
    · rw [cleanup_eq_error_iff, gt_iff_lt, UInt64.lt_iff_toNat_lt, halloc]
      exact List.length_pos_iff

/-- A thread takes an object that another one has pushed and not yet counted. -/
theorem pool_two : ∃ t : Threads Bool ObjectPool Place,
    t.shared.held = [8] ∧ t.shared.allocCount.toNat = 1 ∧ t.shared.freeCount.toNat = 0 := by
  have hrun : ∃ t : Threads Bool ObjectPool Place,
      Reaches (Threads.next ObjectPool.step) (fun _ _ ↦ True) (start "segments") t ∧
        (t.shared.held == [8] && t.shared.q == [] && t.place true == .idle &&
          t.place false == .idle) = true :=
    exists_reaches [(true, .pop), (true, .allocate 8), (true, .incAlloc), (true, .decAlloc 8),
      (true, .push), (false, .pop), (false, .decFree), (false, .incAlloc), (true, .incFree)]
      (fun _ _ _ ↦ trivial) (by decide)
  obtain ⟨t, hreach, hlast⟩ := hrun
  simp only [Bool.and_eq_true, beq_iff_eq] at hlast
  obtain ⟨⟨⟨hheld, hq⟩, htrue⟩, hfalse⟩ := hlast
  obtain ⟨-, halloc, hfree, -⟩ :=
    (pool_of_reaches "segments" t hreach).2.2 (Bool.forall_bool.mpr ⟨hfalse, htrue⟩)
  rw [hheld] at halloc
  rw [hq] at hfree
  exact ⟨t, hheld, halloc, hfree⟩

end ObjectPool

end WiseKernel.Core
