import WiseKernel.Net.SlotVector

/-!
# Slots and live objects

`get_free_slot_index` compares the number of slots with `MAX_SLOT` before it
looks at the free list.  Slots are never given back, so their number is the peak
of the objects that were live at once: from the first time on that `MAX_SLOT`
objects are live, no `add` succeeds any more, however many are deleted.
-/

namespace WiseKernel.Net

open WiseKernel.Lib

namespace SlotVector

variable {T : Type}

section

variable {maxSlot : ℕ} {v v' : SlotVector T} {x : T} {id : UInt32}

theorem add_full (h : maxSlot ≤ v.slots.length) :
    v.add maxSlot x = (.error .limitReached, v) := by
  simp [SlotVector.add, getFreeSlotIndex, h]

/-- The object is written into the slot that was found. -/
theorem add_found {index : UInt16} {w : SlotVector T}
    (hfound : v.getFreeSlotIndex maxSlot = (.ok index, w)) (h : index.toNat < w.slots.length) :
    ∃ id v', v.add maxSlot x = (.ok id, v') ∧ v'.freeSlots = w.freeSlots ∧
      v'.slots.length = w.slots.length ∧ getIndex id = index := by
  let slot := w.slots[index.toNat]
  have hslot : w.slots[index.toNat]? = some slot := List.getElem?_eq_getElem h
  refine ⟨slotId (slot.seq + 1) index,
    { w with
      slots := w.slots.set index.toNat ⟨some x, slot.seq + 1⟩
      usedCount := w.usedCount + 1 }, ?_, rfl, List.length_set, getIndex_slotId _ _⟩
  simp only [SlotVector.add, hfound, hslot]

/-- Without a free slot there is one slot more. -/
theorem add_append (h : v.slots.length < maxSlot) (hfree : v.freeSlots = []) :
    ∃ id v', v.add maxSlot x = (.ok id, v') ∧ v'.freeSlots = [] ∧
      v'.slots.length = v.slots.length + 1 ∧ (getIndex id).toNat < v'.slots.length := by
  have hfound : v.getFreeSlotIndex maxSlot =
      (.ok (UInt16.ofNat v.slots.length), { v with slots := v.slots ++ [⟨none, 0⟩] }) := by
    simp [getFreeSlotIndex, if_neg (Nat.not_le_of_lt h), hfree]
  have hlength : (v.slots ++ [(⟨none, 0⟩ : Slot T)]).length = v.slots.length + 1 := by simp
  have hindex : (UInt16.ofNat v.slots.length).toNat <
      (v.slots ++ [(⟨none, 0⟩ : Slot T)]).length := by
    rw [UInt16.toNat_ofNat', hlength]
    exact Nat.lt_succ_of_le (Nat.mod_le _ _)
  obtain ⟨id, v', hadd, hfree', hslots, hid⟩ := add_found hfound hindex
  refine ⟨id, v', hadd, hfree'.trans hfree, hslots.trans hlength, ?_⟩
  rw [hid, hslots]
  exact hindex

/-- A free slot is taken from the front of the list. -/
theorem add_reuse (h : v.slots.length < maxSlot) {i : UInt16} {rest : List UInt16}
    (hfree : v.freeSlots = i :: rest) (hi : i.toNat < v.slots.length) :
    ∃ id v', v.add maxSlot x = (.ok id, v') ∧ v'.freeSlots = rest ∧
      v'.slots.length = v.slots.length ∧ getIndex id = i := by
  have hfound : v.getFreeSlotIndex maxSlot = (.ok i, { v with freeSlots := rest }) := by
    simp [getFreeSlotIndex, if_neg (Nat.not_le_of_lt h), hfree]
  exact add_found hfound hi

theorem del_inRange (h : (getIndex id).toNat < v.slots.length) :
    (v.del id).2.slots.length = v.slots.length ∧
      (v.del id).2.freeSlots = v.freeSlots ++ [getIndex id] := by
  simp [del, List.getElem?_eq_getElem h]

end

/-! ## Histories -/

/-- A call on the vector. -/
inductive Call (T : Type)
  | add (x : T)
  | del (id : UInt32)
  deriving DecidableEq, Repr

/-- The vector with the ids of the objects that were added and not deleted, and
with the most that there were of them at once.  An id can come twice: the number
in it wraps around. -/
structure Census (T : Type) where
  vec : SlotVector T
  live : List UInt32
  peak : ℕ
  deriving DecidableEq, Repr

end SlotVector

/-- What `tcp_node` tells its application. -/
inductive Notice
  | accepted (id : UInt32)
  | connected (id : UInt32)
  deriving DecidableEq, Repr

/-- `tcp_node`, with what it has told its application. -/
structure TcpNode (P : Type) where
  protocols : SlotVector P := {}
  notices : List Notice := []
  deriving DecidableEq, Repr

open SlotVector in
/-- `on_new_socket`, from the created protocol on; `maxSlot` is the 65535 that
`slot_vector` has for `MAX_SLOT` unless it is told otherwise. -/
def TcpNode.onNewSocket {P : Type} (node : TcpNode P) (maxSlot : ℕ) (proto : P)
    (accepted : Bool) : Except SlotVector.Error Unit × TcpNode P :=
  match node.protocols.add maxSlot proto with
  | (.error e, protocols) => (.error e, { node with protocols := protocols })
  | (.ok id, protocols) =>
      (.ok (), { protocols := protocols
                 notices := node.notices ++ [if accepted then .accepted id else .connected id] })

namespace SlotVector

namespace Census

variable {T : Type}

def initial : Census T := ⟨{}, [], 0⟩

/-- A call; a `del` must have a live id. -/
def step (maxSlot : ℕ) (c : Census T) : Call T → Option (Census T)
  | .add x =>
      match c.vec.add maxSlot x with
      | (.error _, vec) => some { c with vec := vec }
      | (.ok id, vec) => some ⟨vec, id :: c.live, max c.peak (c.live.length + 1)⟩
  | .del id =>
      if id ∈ c.live then some { c with vec := (c.vec.del id).2, live := c.live.erase id }
      else none

/-- The next `add` goes by the number of live objects. -/
structure ByLive (maxSlot : ℕ) (c : Census T) (x : T) : Prop where
  succeeds : c.live.length < maxSlot → ∃ id vec, c.vec.add maxSlot x = (.ok id, vec)
  throws : maxSlot ≤ c.live.length → (c.vec.add maxSlot x).1 = .error .limitReached
  unchanged : ∀ e vec, c.vec.add maxSlot x = (.error e, vec) → vec = c.vec
  /-- a node with free slots accepts a new protocol -/
  accepts : c.live.length < maxSlot → ∀ node : TcpNode T, node.protocols = c.vec →
    ∀ accepted, (node.onNewSocket maxSlot x accepted).1 = .ok ()

/-- Every slot belongs to a live object or is on the free list, and there are as
many as there were live objects at the peak. -/
structure Inv (c : Census T) : Prop where
  count : c.live.length + c.vec.freeSlots.length = c.vec.slots.length
  peak : c.vec.slots.length = c.peak
  live : ∀ id ∈ c.live, (getIndex id).toNat < c.vec.slots.length
  free : ∀ i ∈ c.vec.freeSlots, i.toNat < c.vec.slots.length

theorem inv_initial : Inv (initial : Census T) where
  count := rfl
  peak := rfl
  live _ hid := absurd hid List.not_mem_nil
  free _ hi := absurd hi List.not_mem_nil

section

variable {maxSlot : ℕ} {c c' : Census T}

/-- The new object finds a slot of its own. -/
theorem Inv.add (hinv : Inv c) (x : T) (h : c.peak < maxSlot) :
    ∃ id vec, c.vec.add maxSlot x = (.ok id, vec) ∧
      Inv ⟨vec, id :: c.live, max c.peak (c.live.length + 1)⟩ := by
  have hcount := hinv.count
  have hpeak := hinv.peak
  rw [← hpeak] at h
  cases hfree : c.vec.freeSlots with
  | nil =>
      rw [hfree, List.length_nil] at hcount
      obtain ⟨id, vec, hadd, hfree', hslots, hid⟩ := add_append h hfree
      refine ⟨id, vec, hadd, ?_, ?_, ?_, ?_⟩
      · simp only [hfree', List.length_cons, List.length_nil]
        omega
      · change vec.slots.length = max _ _
        omega
      · rintro id' (_ | ⟨_, hid'⟩)
        · exact hid
        · have hlt := hinv.live id' hid'
          change _ < vec.slots.length
          omega
      · change ∀ i ∈ vec.freeSlots, _
        rw [hfree']
        exact fun i hi ↦ absurd hi List.not_mem_nil
  | cons i rest =>
      rw [hfree, List.length_cons] at hcount
      have hi : i.toNat < c.vec.slots.length := hinv.free i (by simp [hfree])
      obtain ⟨id, vec, hadd, hfree', hslots, hid⟩ := add_reuse h hfree hi
      refine ⟨id, vec, hadd, ?_, ?_, ?_, ?_⟩
      · simp only [hfree', List.length_cons]
        omega
      · change vec.slots.length = max _ _
        omega
      · change ∀ id' ∈ _, _ < vec.slots.length
        rw [hslots]
        rintro id' (_ | ⟨_, hid'⟩)
        · rw [hid]
          exact hi
        · exact hinv.live id' hid'
      · change ∀ j ∈ vec.freeSlots, _ < vec.slots.length
        rw [hfree', hslots]
        exact fun j hj ↦ hinv.free j (by simp [hfree, hj])

theorem Inv.full (hinv : Inv c) (x : T) (h : maxSlot ≤ c.peak) :
    c.vec.add maxSlot x = (.error .limitReached, c.vec) := by
  apply add_full
  rw [hinv.peak]
  exact h

/-- The slot of a deleted object goes to the free list. -/
theorem Inv.del (hinv : Inv c) {id : UInt32} (hid : id ∈ c.live) :
    Inv { c with vec := (c.vec.del id).2, live := c.live.erase id } := by
  have hindex := hinv.live id hid
  obtain ⟨hslots, hfree⟩ := del_inRange hindex
  have hlength := List.length_erase_add_one hid
  have hcount := hinv.count
  refine ⟨?_, hslots.trans hinv.peak, fun id' hid' ↦ ?_, fun i hi ↦ ?_⟩
  · simp only [hslots, hfree, List.length_append, List.length_singleton]
    omega
  · change _ < (c.vec.del id).2.slots.length
    rw [hslots]
    exact hinv.live id' (List.mem_of_mem_erase hid')
  · change _ < (c.vec.del id).2.slots.length
    change i ∈ (c.vec.del id).2.freeSlots at hi
    rw [hfree, List.mem_append, List.mem_singleton] at hi
    rw [hslots]
    rcases hi with hold | rfl
    · exact hinv.free i hold
    · exact hindex

theorem Inv.step (hinv : Inv c) {call : Call T} (h : c.step maxSlot call = some c') :
    Inv c' := by
  cases call with
  | add x =>
      rcases Nat.lt_or_ge c.peak maxSlot with hlt | hge
      · obtain ⟨id, vec, hadd, hnext⟩ := hinv.add x hlt
        simp only [Census.step, hadd, Option.some.injEq] at h
        rwa [← h]
      · simp only [Census.step, hinv.full x hge, Option.some.injEq] at h
        rwa [← h]
  | del id =>
      rw [Census.step] at h
      split_ifs at h with hid
      rw [← Option.some.inj h]
      exact hinv.del hid

theorem Inv.of_reaches (h : Reaches (Census.step maxSlot) (fun _ _ ↦ True) initial c) : Inv c :=
  h.invariant inv_initial fun _ _ _ hinv _ hstep ↦ hinv.step hstep

theorem onNewSocket_ok_iff {node : TcpNode T} {x : T} {accepted : Bool} :
    (node.onNewSocket maxSlot x accepted).1 = .ok () ↔
      ∃ id vec, node.protocols.add maxSlot x = (.ok id, vec) := by
  rw [TcpNode.onNewSocket]
  rcases node.protocols.add maxSlot x with ⟨_ | id, vec⟩ <;> simp

/-- As long as the peak is below the limit, there is room for every object. -/
theorem Inv.byLive_of_peak (hinv : Inv c) {x : T} (h : c.peak < maxSlot) :
    ByLive maxSlot c x := by
  obtain ⟨id, vec, hadd, -⟩ := hinv.add x h
  have hcount := hinv.count
  have hpeak := hinv.peak
  refine ⟨fun _ ↦ ⟨id, vec, hadd⟩, fun hfull ↦ ?_, fun e vec' herror ↦ ?_,
    fun _ node hnode accepted ↦ ?_⟩
  · omega
  · simp [hadd] at herror
  · rw [onNewSocket_ok_iff, hnode]
    exact ⟨id, vec, hadd⟩

theorem Inv.byLive_of_full (hinv : Inv c) {x : T} (h : maxSlot ≤ c.live.length) :
    ByLive maxSlot c x := by
  have hcount := hinv.count
  have hpeak := hinv.peak
  have hfull := hinv.full x (show maxSlot ≤ c.peak by omega)
  refine ⟨fun hlt ↦ ?_, fun _ ↦ ?_, fun e vec herror ↦ ?_, fun hlt ↦ ?_⟩
  · omega
  · rw [hfull]
  · rw [hfull] at herror
    exact (congrArg Prod.snd herror).symm
  · omega

/-- Once the limit was reached, a free slot is of no use. -/
theorem Inv.not_byLive (hinv : Inv c) {x : T} (hpeak : maxSlot ≤ c.peak)
    (hlive : c.live.length < maxSlot) : ¬ ByLive maxSlot c x := by
  intro h
  obtain ⟨id, vec, hadd⟩ := h.succeeds hlive
  rw [hinv.full x hpeak] at hadd
  simp at hadd

/-- After any calls, an `add` goes by the number of live objects exactly if there
were never `MAX_SLOT` of them or there are as many now. -/
theorem add_byLive_iff (h : Reaches (Census.step maxSlot) (fun _ _ ↦ True) initial c) (x : T) :
    ByLive maxSlot c x ↔ c.peak < maxSlot ∨ maxSlot ≤ c.live.length := by
  have hinv := Inv.of_reaches h
  constructor
  · intro hby
    by_contra hnot
    obtain ⟨hpeak, hlive⟩ := not_or.mp hnot
    exact hinv.not_byLive (Nat.le_of_not_lt hpeak) (Nat.lt_of_not_le hlive) hby
  · rintro (hpeak | hlive)
    · exact hinv.byLive_of_peak hpeak
    · exact hinv.byLive_of_full hlive

end

/-- Two objects in three slots, after one was deleted. -/
theorem add_byLive_third : ∃ c : Census ℕ,
    Reaches (Census.step 3) (fun _ _ ↦ True) initial c ∧ ByLive 3 c 30 := by
  have hrun : ∃ c : Census ℕ, Reaches (Census.step 3) (fun _ _ ↦ True) initial c ∧
      decide (c.peak < 3) = true :=
    exists_reaches [.add 10, .add 20, .del 1] (fun _ _ _ ↦ trivial) (by decide)
  obtain ⟨c, hreach, hpeak⟩ := hrun
  exact ⟨c, hreach, (add_byLive_iff hreach 30).mpr (.inl (of_decide_eq_true hpeak))⟩

/-- One slot, which is free again: nothing can be added. -/
theorem not_add_byLive : ¬ ∀ (maxSlot : ℕ), 1 ≤ maxSlot → ∀ c : Census ℕ,
    Reaches (Census.step maxSlot) (fun _ _ ↦ True) initial c → ∀ x, ByLive maxSlot c x := by
  intro hall
  have hrun : ∃ c : Census ℕ, Reaches (Census.step 1) (fun _ _ ↦ True) initial c ∧
      decide (1 ≤ c.peak ∧ c.live.length < 1) = true :=
    exists_reaches [.add 10, .del 1] (fun _ _ _ ↦ trivial) (by decide)
  obtain ⟨c, hreach, hlast⟩ := hrun
  obtain ⟨hpeak, hlive⟩ := of_decide_eq_true hlast
  exact (Inv.of_reaches hreach).not_byLive hpeak hlive (hall 1 (by decide) c hreach 20)

end Census

end SlotVector

end WiseKernel.Net
