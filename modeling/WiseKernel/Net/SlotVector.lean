import Mathlib.Algebra.Group.Nat.Defs
import WiseKernel.Lib.Runs
import WiseKernel.Lib.Table

/-!
# Slots with generations

`slot_vector<T, MAX_SLOT>` gives every object an id made of the index of its
slot and of the number of times the slot was used.  `del` looks at the index
only, `clear` drops the slots but neither the free list nor the count, and the
16 bits of the number wrap around.  As long as none of this happens, an id finds
its own object or nothing.
-/

namespace WiseKernel.Net

open WiseKernel.Lib

namespace SlotVector

/-! ## Ids -/

/-- `slot_id(seq, index).get_value()`: the sequence is the low half. -/
def slotId (seq index : UInt16) : UInt32 := index.toUInt32 <<< 16 ||| seq.toUInt32

def getSeq (id : UInt32) : UInt16 := id.toUInt16

def getIndex (id : UInt32) : UInt16 := (id >>> 16).toUInt16

def isValid (id : UInt32) : Bool := getSeq id > 0

theorem slotId_toNat (seq index : UInt16) :
    (slotId seq index).toNat = index.toNat * 2 ^ 16 + seq.toNat := by
  have hlt : seq.toNat < 2 ^ 16 := seq.toNat_lt
  have hindex := index.toNat_lt
  have hhigh : (index.toUInt32 <<< 16).toNat = index.toNat <<< 16 := by
    simp only [UInt32.toNat_shiftLeft, UInt16.toNat_toUInt32, UInt32.reduceToNat, Nat.reduceMod]
    rw [Nat.shiftLeft_eq, Nat.mod_eq_of_lt]
    omega
  rw [slotId, UInt32.toNat_or, hhigh, UInt16.toNat_toUInt32,
    ← Nat.shiftLeft_add_eq_or_of_lt hlt, Nat.shiftLeft_eq]

theorem getSeq_toNat (id : UInt32) : (getSeq id).toNat = id.toNat % 2 ^ 16 := by
  simp [getSeq]

theorem getIndex_toNat (id : UInt32) : (getIndex id).toNat = id.toNat / 2 ^ 16 := by
  have hlt := id.toNat_lt
  simp only [getIndex, UInt32.toNat_toUInt16, UInt32.toNat_shiftRight, UInt32.reduceToNat,
    Nat.reduceMod, Nat.shiftRight_eq_div_pow]
  omega

@[simp] theorem getSeq_slotId (seq index : UInt16) : getSeq (slotId seq index) = seq := by
  have hlt := seq.toNat_lt
  apply UInt16.toNat_inj.mp
  rw [getSeq_toNat, slotId_toNat]
  omega

@[simp] theorem getIndex_slotId (seq index : UInt16) : getIndex (slotId seq index) = index := by
  have hlt := seq.toNat_lt
  apply UInt16.toNat_inj.mp
  rw [getIndex_toNat, slotId_toNat]
  omega

theorem slotId_eta (id : UInt32) : slotId (getSeq id) (getIndex id) = id := by
  apply UInt32.toNat_inj.mp
  rw [slotId_toNat, getSeq_toNat, getIndex_toNat]
  omega

structure Slot (T : Type) where
  sp : Option T
  seq : UInt16
  deriving DecidableEq, Repr

inductive Error
  /-- `"slot_vector. slot limit reached"` -/
  | limitReached
  /-- `slots_[slot_idx]` with an index out of range: undefined -/
  | outOfRange
  deriving DecidableEq, Repr

end SlotVector

open SlotVector in
/-- `slot_vector`; `MAX_SLOT` is an argument of `add`. -/
structure SlotVector (T : Type) where
  slots : List (Slot T) := []
  freeSlots : List UInt16 := []
  usedCount : UInt64 := 0
  deriving DecidableEq, Repr

namespace SlotVector

variable {T : Type}

/-- `get_free_slot_index`, with the vector that a throw leaves. -/
def getFreeSlotIndex (maxSlot : ℕ) (v : SlotVector T) : Except Error UInt16 × SlotVector T :=
  if v.slots.length ≥ maxSlot then (.error .limitReached, v)
  else
    match v.freeSlots with
    | [] =>
        let slots := v.slots ++ [⟨none, 0⟩]
        (.ok (UInt16.ofNat (slots.length - 1)), { v with slots := slots })
    | index :: rest => (.ok index, { v with freeSlots := rest })

/-- `add` of an object, with the vector that a throw leaves. -/
def add (maxSlot : ℕ) (v : SlotVector T) (x : T) : Except Error UInt32 × SlotVector T :=
  match v.getFreeSlotIndex maxSlot with
  | (.error e, v) => (.error e, v)
  | (.ok index, v) =>
      match v.slots[index.toNat]? with
      | none => (.error .outOfRange, v)
      | some slot =>
          let seq := slot.seq + 1
          (.ok (slotId seq index),
            { v with
              slots := v.slots.set index.toNat ⟨some x, seq⟩
              usedCount := v.usedCount + 1 })

def get (v : SlotVector T) (id : UInt32) : Option T :=
  match v.slots[(getIndex id).toNat]? with
  | none => none
  | some slot => if slot.seq ≠ getSeq id then none else slot.sp

def del (v : SlotVector T) (id : UInt32) : Bool × SlotVector T :=
  match v.slots[(getIndex id).toNat]? with
  | none => (false, v)
  | some slot =>
      (true,
        { slots := v.slots.set (getIndex id).toNat { slot with sp := none }
          freeSlots := v.freeSlots ++ [getIndex id]
          usedCount := v.usedCount - 1 })

def clear (v : SlotVector T) : SlotVector T := { v with slots := [] }

/-! ## Histories -/

/-- A call on the vector. -/
inductive Op (T : Type)
  | add (x : T)
  | get (id : UInt32)
  | del (id : UInt32)
  | clear
  deriving DecidableEq, Repr

/-- The vector with what it stands for: the objects under their ids, and all ids
that were ever given. -/
structure History (T : Type) where
  vec : SlotVector T
  live : Table UInt32 T
  issued : List UInt32

namespace History

def initial : History T := ⟨{}, ∅, []⟩

def step (maxSlot : ℕ) (h : History T) : Op T → History T
  | .add x =>
      match h.vec.add maxSlot x with
      | (.error _, vec) => { h with vec := vec }
      | (.ok id, vec) => ⟨vec, h.live.insert id x, id :: h.issued⟩
  | .get _ => h
  | .del id => { h with vec := (h.vec.del id).2, live := h.live.erase id }
  | .clear => { h with vec := h.vec.clear, live := ∅ }

/-- What the vector is for, at one call. -/
structure Identifies (maxSlot : ℕ) (h : History T) (op : Op T) : Prop where
  valid : ∀ id x, (h.step maxSlot op).live.get? id = some x → isValid id = true
  /-- an id is not given a second time -/
  fresh : ∀ x id vec, op = .add x → h.vec.add maxSlot x = (.ok id, vec) → id ∉ h.issued
  get : ∀ id, (h.step maxSlot op).vec.get id = (h.step maxSlot op).live.get? id
  del : ∀ id, op = .del id → (h.vec.del id).1 = (h.live.get? id).isSome ∧
    ((h.vec.del id).1 = false → (h.vec.del id).2 = h.vec)
  used : (h.step maxSlot op).vec.usedCount.toNat = (h.step maxSlot op).live.size
  free : (h.step maxSlot op).vec.freeSlots.Nodup ∧
    ∀ i ∈ (h.step maxSlot op).vec.freeSlots, ∃ slot,
      (h.step maxSlot op).vec.slots[i.toNat]? = some slot ∧ slot.sp = none

/-- The calls that keep the ids apart: `add` finds a slot that was used fewer
than 65535 times, or there are fewer than 65536 slots; `del` has a live id or an
index behind the slots; `clear` has nothing to drop. -/
def Sound (maxSlot : ℕ) (h : History T) : Op T → Prop
  | .add _ => h.vec.slots.length < maxSlot →
      match h.vec.freeSlots with
      | [] => h.vec.slots.length < 2 ^ 16
      | i :: _ => ∀ slot, h.vec.slots[i.toNat]? = some slot → slot.seq ≠ 0xFFFF
  | .get _ => True
  | .del id => (h.live.get? id).isSome ∨ h.vec.slots.length ≤ (getIndex id).toNat
  | .clear => h.vec.slots = []

/-! ## One call -/

/-- The slots, the free list and the count belong to the live objects. -/
structure Inv (h : History T) : Prop where
  size : h.vec.slots.length ≤ 2 ^ 16
  get : ∀ id, h.vec.get id = h.live.get? id
  valid : ∀ id x, h.live.get? id = some x → isValid id = true
  nodup : h.vec.freeSlots.Nodup
  free : ∀ i : UInt16, i ∈ h.vec.freeSlots ↔
    ∃ slot, h.vec.slots[i.toNat]? = some slot ∧ slot.sp = none
  used : h.vec.usedCount.toNat = h.live.size
  count : h.live.size + h.vec.freeSlots.length = h.vec.slots.length
  issued : ∀ id ∈ h.issued, ∃ slot,
    h.vec.slots[(getIndex id).toNat]? = some slot ∧ getSeq id ≤ slot.seq

theorem inv_initial : Inv (initial : History T) where
  size := Nat.zero_le _
  get id := rfl
  valid id x hx := by simp [initial] at hx
  nodup := List.nodup_nil
  free i := by simp [initial]
  used := rfl
  count := rfl
  issued id hid := absurd hid (by simp [initial])

variable {h : History T} {maxSlot : ℕ}

theorem toNat_eq_iff {i j : UInt16} : i.toNat = j.toNat ↔ i = j := UInt16.toNat_inj

/-- What a written slot changes for `get`. -/
theorem get_set {v : SlotVector T} {i : UInt16} (hi : i.toNat < v.slots.length) (slot : Slot T)
    (free : List UInt16) (used : UInt64) (id : UInt32) :
    SlotVector.get ⟨v.slots.set i.toNat slot, free, used⟩ id =
      if getIndex id = i then if slot.seq ≠ getSeq id then none else slot.sp else v.get id := by
  by_cases hid : getIndex id = i
  · subst hid
    simp [SlotVector.get, hi]
  · have hne : i.toNat ≠ (getIndex id).toNat := fun heq ↦ hid (toNat_eq_iff.mp heq).symm
    simp [SlotVector.get, hid, List.getElem?_set_ne hne]

/-- A slot for a new object: it is in range and empty, its number does not wrap,
and the free list does not have it. -/
structure Prepared (h : History T) (v : SlotVector T) (i : UInt16) (slot : Slot T) : Prop where
  size : v.slots.length ≤ 2 ^ 16
  get : ∀ id, v.get id = h.live.get? id
  found : v.slots[i.toNat]? = some slot
  empty : slot.sp = none
  seq : slot.seq ≠ 0xFFFF
  nodup : v.freeSlots.Nodup
  free : ∀ j : UInt16, j ∈ v.freeSlots ↔
    j ≠ i ∧ ∃ slot, v.slots[j.toNat]? = some slot ∧ slot.sp = none
  used : v.usedCount.toNat = h.live.size
  count : h.live.size + v.freeSlots.length + 1 = v.slots.length
  issued : ∀ id ∈ h.issued, ∃ slot,
    v.slots[(getIndex id).toNat]? = some slot ∧ getSeq id ≤ slot.seq

theorem Inv.append (hinv : Inv h) (hsize : h.vec.slots.length < 2 ^ 16) :
    Prepared h { h.vec with slots := h.vec.slots ++ [⟨none, 0⟩] }
      (UInt16.ofNat h.vec.slots.length) ⟨none, 0⟩ := by
  have hindex : (UInt16.ofNat h.vec.slots.length).toNat = h.vec.slots.length :=
    UInt16.toNat_ofNat_of_lt' hsize
  have hlookup : ∀ n, (h.vec.slots ++ [(⟨none, 0⟩ : Slot T)])[n]? =
      if n = h.vec.slots.length then some ⟨none, 0⟩ else h.vec.slots[n]? := by
    intro n
    rcases Nat.lt_trichotomy n h.vec.slots.length with hlt | rfl | hgt
    · rw [List.getElem?_append_left hlt, if_neg (by omega)]
    · simp
    · rw [List.getElem?_eq_none (by simp; omega), if_neg (by omega),
        List.getElem?_eq_none (by omega)]
  refine ⟨?_, fun id ↦ ?_, ?_, rfl, by simp, hinv.nodup, fun j ↦ ?_, hinv.used,
    by simpa using hinv.count, fun id hid ↦ ?_⟩
  · simp only [List.length_append, List.length_singleton]
    omega
  · rw [← hinv.get, SlotVector.get, SlotVector.get, hlookup]
    split_ifs with hid
    · rw [hid, List.getElem?_eq_none (Nat.le_refl _)]
      simp
    · rfl
  · rw [hindex, hlookup, if_pos rfl]
  · change j ∈ h.vec.freeSlots ↔ _
    rw [hinv.free]
    constructor
    · rintro ⟨slot, hslot, hempty⟩
      have hlt := (List.getElem?_eq_some_iff.mp hslot).1
      refine ⟨fun hj ↦ ?_, slot, ?_, hempty⟩
      · rw [hj, hindex] at hlt
        exact absurd hlt (Nat.lt_irrefl _)
      · rw [hlookup, if_neg (Nat.ne_of_lt hlt)]
        exact hslot
    · rintro ⟨hj, slot, hslot, hempty⟩
      refine ⟨slot, ?_, hempty⟩
      rwa [hlookup, if_neg] at hslot
      intro heq
      exact hj (toNat_eq_iff.mp (heq.trans hindex.symm))
  · obtain ⟨slot, hslot, hseq⟩ := hinv.issued id hid
    refine ⟨slot, ?_, hseq⟩
    rw [hlookup, if_neg (Nat.ne_of_lt (List.getElem?_eq_some_iff.mp hslot).1)]
    exact hslot

theorem Inv.reuse (hinv : Inv h) {i : UInt16} {rest : List UInt16}
    (hfree : h.vec.freeSlots = i :: rest)
    (hseq : ∀ slot, h.vec.slots[i.toNat]? = some slot → slot.seq ≠ 0xFFFF) :
    ∃ slot, Prepared h { h.vec with freeSlots := rest } i slot := by
  obtain ⟨slot, hslot, hempty⟩ := (hinv.free i).mp (by simp [hfree])
  have hnodup := hinv.nodup
  rw [hfree, List.nodup_cons] at hnodup
  refine ⟨slot, hinv.size, hinv.get, hslot, hempty, hseq slot hslot, hnodup.2, fun j ↦ ?_,
    hinv.used, ?_, hinv.issued⟩
  · have hmem := hinv.free j
    rw [hfree, List.mem_cons] at hmem
    constructor
    · intro hj
      refine ⟨?_, hmem.mp (.inr hj)⟩
      rintro rfl
      exact hnodup.1 hj
    · rintro ⟨hj, hslot'⟩
      exact (hmem.mpr hslot').resolve_left hj
  · have hcount := hinv.count
    rw [hfree, List.length_cons] at hcount
    exact hcount

/-- Writing the object into the slot makes its new id a live one. -/
theorem Prepared.add {v : SlotVector T} {i : UInt16} {slot : Slot T} (hp : Prepared h v i slot)
    (hvalid : ∀ id x, h.live.get? id = some x → isValid id = true) (x : T) :
    slotId (slot.seq + 1) i ∉ h.issued ∧
      Inv ⟨⟨v.slots.set i.toNat ⟨some x, slot.seq + 1⟩, v.freeSlots, v.usedCount + 1⟩,
        h.live.insert (slotId (slot.seq + 1) i) x, slotId (slot.seq + 1) i :: h.issued⟩ := by
  have hi : i.toNat < v.slots.length := (List.getElem?_eq_some_iff.mp hp.found).1
  have hseq : (slot.seq + 1).toNat = slot.seq.toNat + 1 := by
    have hne : slot.seq.toNat ≠ 0xFFFF := fun heq ↦ hp.seq (UInt16.toNat_inj.mp heq)
    have hlt := slot.seq.toNat_lt
    rw [UInt16.toNat_add]
    exact Nat.mod_eq_of_lt (by simp; omega)
  have hissued : slotId (slot.seq + 1) i ∉ h.issued := by
    intro hmem
    obtain ⟨slot', hslot', hle⟩ := hp.issued _ hmem
    rw [getIndex_slotId, hp.found] at hslot'
    obtain rfl := Option.some.inj hslot'
    rw [getSeq_slotId, UInt16.le_iff_toNat_le, hseq] at hle
    omega
  have hnew : h.live.get? (slotId (slot.seq + 1) i) = none := by
    rw [← hp.get, SlotVector.get, getIndex_slotId, hp.found]
    simp
  have hother : ∀ j : UInt16, j ≠ i → ∀ s : Slot T, (v.slots.set i.toNat s)[j.toNat]? =
      v.slots[j.toNat]? := by
    intro j hj s
    exact List.getElem?_set_ne fun heq ↦ hj (toNat_eq_iff.mp heq).symm
  refine ⟨hissued, by simpa using hp.size, fun id ↦ ?_, fun id y ↦ ?_, hp.nodup, fun j ↦ ?_, ?_, ?_,
    fun id hid ↦ ?_⟩
  · rw [get_set hi, Table.get?_insert]
    by_cases hindex : getIndex id = i
    · by_cases hid : id = slotId (slot.seq + 1) i
      · simp [hid]
      · have hne : slot.seq + 1 ≠ getSeq id := by
          intro heq
          rw [heq, ← hindex, slotId_eta] at hid
          exact hid rfl
        rw [if_pos hindex, if_pos hne, if_neg hid, ← hp.get, SlotVector.get, hindex, hp.found]
        simp [hp.empty]
    · have hid : id ≠ slotId (slot.seq + 1) i := by
        rintro rfl
        exact hindex (getIndex_slotId _ _)
      rw [if_neg hindex, if_neg hid, hp.get]
  · simp only [Table.get?_insert]
    split_ifs with hid
    · intro _
      rw [hid, isValid, getSeq_slotId, decide_eq_true_eq, gt_iff_lt, UInt16.lt_iff_toNat_lt, hseq]
      exact Nat.succ_pos _
    · exact hvalid id y
  · change j ∈ v.freeSlots ↔ _
    rw [hp.free]
    by_cases hj : j = i
    · subst hj
      simp [hi]
    · rw [hother j hj]
      simp [hj]
  · have hused := hp.used
    have hcount := hp.count
    have hsize := hp.size
    rw [UInt64.toNat_add, Table.size_insert hnew, hused]
    exact Nat.mod_eq_of_lt (by simp; omega)
  · change (h.live.insert _ x).size + v.freeSlots.length = (v.slots.set _ _).length
    rw [Table.size_insert hnew, List.length_set, ← hp.count]
    omega
  · rcases List.mem_cons.mp hid with rfl | hold
    · refine ⟨⟨some x, slot.seq + 1⟩, ?_, ?_⟩
      · simp [hi]
      · simp
    · obtain ⟨slot', hslot', hle⟩ := hp.issued id hold
      by_cases hindex : getIndex id = i
      · refine ⟨⟨some x, slot.seq + 1⟩, by simp [hindex, hi], ?_⟩
        rw [hindex, hp.found] at hslot'
        obtain rfl := Option.some.inj hslot'
        rw [UInt16.le_iff_toNat_le] at hle ⊢
        change _ ≤ (slot.seq + 1).toNat
        omega
      · exact ⟨slot', (hother _ hindex _).trans hslot', hle⟩

/-- `add` throws, or gives a new id and keeps everything in order. -/
theorem Inv.add (hinv : Inv h) {x : T} (hsound : Sound maxSlot h (.add x)) :
    h.vec.add maxSlot x = (.error .limitReached, h.vec) ∨
      ∃ id vec, h.vec.add maxSlot x = (.ok id, vec) ∧ id ∉ h.issued ∧
        Inv ⟨vec, h.live.insert id x, id :: h.issued⟩ := by
  by_cases hlimit : h.vec.slots.length ≥ maxSlot
  · left
    simp [SlotVector.add, getFreeSlotIndex, hlimit]
  · right
    have hsound' := hsound (Nat.lt_of_not_le hlimit)
    cases hfree : h.vec.freeSlots with
    | nil =>
        rw [hfree] at hsound'
        have hp := hinv.append hsound'
        refine ⟨_, _, ?_, hp.add hinv.valid x⟩
        have hfound := hp.found
        simp only [SlotVector.add, getFreeSlotIndex, if_neg hlimit, hfree, List.length_append,
          List.length_singleton, Nat.add_sub_cancel] at hfound ⊢
        rw [hfound]
    | cons i rest =>
        rw [hfree] at hsound'
        obtain ⟨slot, hp⟩ := hinv.reuse hfree hsound'
        refine ⟨_, _, ?_, hp.add hinv.valid x⟩
        have hfound := hp.found
        simp only [SlotVector.add, getFreeSlotIndex, if_neg hlimit, hfree] at hfound ⊢
        rw [hfound]

/-- `del` of a live id empties its slot and puts it on the free list. -/
theorem Inv.del_live (hinv : Inv h) {id : UInt32} {x : T} (hlive : h.live.get? id = some x) :
    (h.vec.del id).1 = true ∧ Inv { h with vec := (h.vec.del id).2, live := h.live.erase id } := by
  have hget := hinv.get id
  rw [hlive, SlotVector.get] at hget
  cases hslot : h.vec.slots[(getIndex id).toNat]? with
  | none => simp [hslot] at hget
  | some slot =>
      have hi := (List.getElem?_eq_some_iff.mp hslot).1
      have hseq : slot.seq = getSeq id := by
        by_contra hne
        simp [hslot, hne] at hget
      have hsp : slot.sp = some x := by
        simpa [hslot, hseq] using hget
      have hother : ∀ j : UInt16, j ≠ getIndex id → ∀ s : Slot T,
          (h.vec.slots.set (getIndex id).toNat s)[j.toNat]? = h.vec.slots[j.toNat]? := by
        intro j hj s
        exact List.getElem?_set_ne fun heq ↦ hj (toNat_eq_iff.mp heq).symm
      have hnotFree : getIndex id ∉ h.vec.freeSlots := by
        rw [hinv.free]
        rintro ⟨slot', hslot', hempty⟩
        rw [hslot] at hslot'
        obtain rfl := Option.some.inj hslot'
        simp [hsp] at hempty
      simp only [SlotVector.del, hslot]
      refine ⟨trivial, by simpa using hinv.size, fun id' ↦ ?_, fun id' y ↦ ?_, ?_,
        fun j ↦ ?_, ?_, ?_,
        fun id' hid' ↦ ?_⟩
      · rw [get_set hi, Table.get?_erase]
        by_cases hid : id' = id
        · simp [hid]
        · rw [if_neg hid]
          by_cases hindex : getIndex id' = getIndex id
          · have hne : slot.seq ≠ getSeq id' := by
              intro heq
              rw [← slotId_eta id', ← heq, hseq, hindex, slotId_eta] at hid
              exact hid rfl
            rw [if_pos hindex, if_pos hne, ← hinv.get, SlotVector.get, hindex, hslot]
            simp [hne]
          · rw [if_neg hindex, hinv.get]
      · simp only [Table.get?_erase]
        split_ifs
        · simp
        · exact hinv.valid id' y
      · rw [List.nodup_append]
        refine ⟨hinv.nodup, by simp, ?_⟩
        rintro a ha b hb rfl
        rw [List.mem_singleton.mp hb] at ha
        exact hnotFree ha
      · rw [List.mem_append, List.mem_singleton, hinv.free]
        by_cases hj : j = getIndex id
        · subst hj
          simp [hi]
        · rw [hother j hj]
          simp [hj]
      · have hused := hinv.used
        have hsize := Table.size_erase hlive
        have hone : (1 : UInt64) ≤ h.vec.usedCount := by
          rw [UInt64.le_iff_toNat_le, hused, ← hsize]
          simp
        rw [UInt64.toNat_sub_of_le _ _ hone, hused, ← hsize]
        simp
      · have hcount := hinv.count
        have hsize := Table.size_erase hlive
        simp only [List.length_append, List.length_singleton, List.length_set]
        omega
      · obtain ⟨slot', hslot', hle⟩ := hinv.issued id' hid'
        by_cases hindex : getIndex id' = getIndex id
        · refine ⟨{ slot with sp := none }, by simp [hindex, hi], ?_⟩
          rw [hindex, hslot] at hslot'
          obtain rfl := Option.some.inj hslot'
          exact hle
        · exact ⟨slot', (hother _ hindex _).trans hslot', hle⟩

theorem del_outOfRange {v : SlotVector T} {id : UInt32}
    (h : v.slots.length ≤ (getIndex id).toNat) : v.del id = (false, v) := by
  simp [SlotVector.del, List.getElem?_eq_none h]

theorem Inv.live_of_outOfRange (hinv : Inv h) {id : UInt32}
    (hindex : h.vec.slots.length ≤ (getIndex id).toNat) : h.live.get? id = none := by
  rw [← hinv.get, SlotVector.get, List.getElem?_eq_none hindex]

theorem Inv.erase_outOfRange (hinv : Inv h) {id : UInt32}
    (hindex : h.vec.slots.length ≤ (getIndex id).toNat) :
    Inv { h with live := h.live.erase id } := by
  have hlive := hinv.live_of_outOfRange hindex
  have hsame : ∀ id', (h.live.erase id).get? id' = h.live.get? id' := by
    intro id'
    rw [Table.get?_erase]
    split_ifs with hid
    · rw [hid, hlive]
    · rfl
  have hsize : (h.live.erase id).size = h.live.size := Table.size_erase_of_none hlive
  refine ⟨hinv.size, fun id' ↦ ?_, fun id' y ↦ ?_, hinv.nodup, hinv.free, ?_, ?_, hinv.issued⟩
  · rw [hsame]
    exact hinv.get id'
  · rw [hsame]
    exact hinv.valid id' y
  · rw [hsize]
    exact hinv.used
  · rw [hsize]
    exact hinv.count

theorem Inv.step (hinv : Inv h) {op : Op T} (hsound : Sound maxSlot h op) :
    Inv (h.step maxSlot op) := by
  cases op with
  | add x =>
      rcases hinv.add hsound with hlimit | ⟨id, vec, hadd, -, hnext⟩
      · simpa only [History.step, hlimit] using hinv
      · simpa only [History.step, hadd] using hnext
  | get id => exact hinv
  | del id =>
      rcases hsound with hlive | hindex
      · obtain ⟨x, hx⟩ := Option.isSome_iff_exists.mp hlive
        exact (hinv.del_live hx).2
      · simp only [History.step, del_outOfRange hindex]
        exact hinv.erase_outOfRange hindex
  | clear =>
      have hslots : h.vec.slots = [] := hsound
      have hcount := hinv.count
      rw [hslots, List.length_nil] at hcount
      have hlive : h.live = ∅ := Table.eq_empty_of_size (by omega)
      have hclear : h.vec.clear = h.vec := by
        rw [clear, ← hslots]
      simp only [History.step, hclear]
      rwa [← hlive]

theorem Inv.identifies (hinv : Inv h) {op : Op T} (hsound : Sound maxSlot h op) :
    Identifies maxSlot h op := by
  have hstep := hinv.step hsound
  refine ⟨hstep.valid, ?_, hstep.get, ?_, hstep.used, hstep.nodup, fun i ↦ (hstep.free i).mp⟩
  · rintro x id vec rfl hadd
    rcases hinv.add hsound with hlimit | ⟨id', vec', hadd', hfresh, -⟩
    · simp [hlimit] at hadd
    · rw [hadd] at hadd'
      cases hadd'
      exact hfresh
  · rintro id rfl
    rcases hsound with hlive | hindex
    · obtain ⟨x, hx⟩ := Option.isSome_iff_exists.mp hlive
      rw [(hinv.del_live hx).1, hx]
      simp
    · rw [del_outOfRange hindex, hinv.live_of_outOfRange hindex]
      simp

/-! ## What goes wrong otherwise -/

/-- With 65536 slots in use the index of the next one is cut to 16 bits, and the
object in slot 0 is lost. -/
theorem Inv.length_lt (hinv : Inv h) {x : T} (hop : Identifies maxSlot h (.add x))
    (hlimit : h.vec.slots.length < maxSlot) (hfree : h.vec.freeSlots = []) :
    h.vec.slots.length < 2 ^ 16 := by
  by_contra hge
  have hlength : h.vec.slots.length = 2 ^ 16 :=
    Nat.le_antisymm hinv.size (Nat.le_of_not_lt hge)
  obtain ⟨slot, hslot⟩ : ∃ slot, h.vec.slots[0]? = some slot :=
    ⟨_, List.getElem?_eq_getElem (by omega)⟩
  obtain ⟨y, hy⟩ : ∃ y, slot.sp = some y := by
    rw [← Option.ne_none_iff_exists']
    intro hempty
    have hmem := (hinv.free 0).mpr ⟨slot, hslot, hempty⟩
    simp [hfree] at hmem
  have hlive : h.live.get? (slotId slot.seq 0) = some y := by
    rw [← hinv.get, SlotVector.get, getIndex_slotId]
    simp [hslot, hy]
  have hadd : h.vec.add maxSlot x = (.ok (slotId (slot.seq + 1) 0),
      { h.vec with
        slots := (h.vec.slots ++ [(⟨none, 0⟩ : Slot T)]).set 0 ⟨some x, slot.seq + 1⟩
        usedCount := h.vec.usedCount + 1 }) := by
    have hindex : UInt16.ofNat h.vec.slots.length = 0 := by
      rw [hlength]
      decide
    have hfound : (h.vec.slots ++ [(⟨none, 0⟩ : Slot T)])[0]? = some slot := by
      rwa [List.getElem?_append_left (by omega)]
    simp only [SlotVector.add, getFreeSlotIndex, if_neg (Nat.not_le_of_lt hlimit), hfree,
      List.length_append, List.length_singleton, Nat.add_sub_cancel, hindex, UInt16.toNat_zero,
      hfound]
  have hget := hop.get (slotId slot.seq 0)
  simp only [History.step, hadd] at hget
  have hne : slotId slot.seq 0 ≠ slotId (slot.seq + 1) 0 := by
    intro heq
    have hseq := congrArg getSeq heq
    simp at hseq
  rw [Table.get?_insert, if_neg hne, hlive, SlotVector.get, getIndex_slotId] at hget
  simp at hget

/-- The number behind 65535 is 0, and such an id is not valid. -/
theorem seq_ne_of_identifies {x : T} (hop : Identifies maxSlot h (.add x))
    (hlimit : h.vec.slots.length < maxSlot) {i : UInt16} {rest : List UInt16}
    (hfree : h.vec.freeSlots = i :: rest) {slot : Slot T}
    (hslot : h.vec.slots[i.toNat]? = some slot) : slot.seq ≠ 0xFFFF := by
  intro hseq
  have hwrap : slot.seq + 1 = 0 := by
    rw [hseq]
    decide
  have hvalid := hop.valid (slotId 0 i) x
  simp only [History.step, SlotVector.add, getFreeSlotIndex,
    if_neg (Nat.not_le_of_lt hlimit), hfree, hslot, hwrap, Table.get?_insert, if_true,
    isValid, getSeq_slotId] at hvalid
  exact absurd (hvalid trivial) (by decide)

theorem Inv.sound (hinv : Inv h) {op : Op T} (hop : Identifies maxSlot h op) :
    Sound maxSlot h op := by
  cases op with
  | add x =>
      intro hlimit
      cases hfree : h.vec.freeSlots with
      | nil => exact hinv.length_lt hop hlimit hfree
      | cons i rest => exact fun slot hslot ↦ seq_ne_of_identifies hop hlimit hfree hslot
  | get id => trivial
  | del id =>
      by_contra hnot
      obtain ⟨hlive, hindex⟩ := not_or.mp hnot
      have hdel := (hop.del id rfl).1
      rw [Bool.eq_false_iff.mpr hlive, SlotVector.del,
        List.getElem?_eq_getElem (Nat.lt_of_not_le hindex)] at hdel
      simp at hdel
  | clear =>
      have hused : h.vec.usedCount.toNat = 0 := hop.used
      have hcount := hinv.count
      rw [← hinv.used, hused] at hcount
      cases hfree : h.vec.freeSlots with
      | nil =>
          rw [hfree] at hcount
          exact List.eq_nil_of_length_eq_zero hcount.symm
      | cons i rest =>
          -- the free list still has slots that are gone
          obtain ⟨slot, hslot, -⟩ := hop.free.2 i (by simp [History.step, SlotVector.clear, hfree])
          simp [History.step, SlotVector.clear] at hslot

/-- Over a whole history the ids identify the objects exactly when every call is
sound. -/
theorem identifies_iff_sound (maxSlot : ℕ) (ops : List (Op T)) :
    Throughout (step maxSlot) (Identifies maxSlot) initial ops ↔
      Throughout (step maxSlot) (Sound maxSlot) initial ops :=
  throughout_congr inv_initial (fun _ _ hinv hsound ↦ hinv.step hsound)
    fun _ _ hinv ↦ ⟨hinv.sound, hinv.identifies⟩

/-- The id 1 of a deleted object deletes the object that has its slot now. -/
theorem not_identifies_stale :
    ¬ Throughout (step 65535) (Identifies 65535) (initial : History ℕ)
      [.add 10, .del 1, .add 20, .del 1] := by
  rintro ⟨-, -, -, hdel, -⟩
  exact absurd (hdel.del 1 rfl).1 (by decide)

end History

end SlotVector

end WiseKernel.Net
