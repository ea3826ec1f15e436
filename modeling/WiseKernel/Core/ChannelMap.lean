import WiseKernel.Lib.Table
import WiseKernel.Lib.Threads

/-!
# The channel map

`channel_map` keeps the channels by key and an index from their addresses to their
keys.  `create` looks for the key under one lock and inserts under another, and
`find_from_addr` reads the index under one lock and the map under another.
-/

namespace WiseKernel.Core

open WiseKernel.Lib

/-- `channel::ptr`: what the map needs of a channel. -/
structure ChannelRef (K : Type) where
  key : K
  pkey : ℕ
  deriving DecidableEq, Repr

/-- `channel_map` with what its calls have answered: the channels returned by
`create` whose key has not been destroyed since, and the answers of
`find_from_addr`. -/
structure ChannelMap (K : Type) where
  map : Table K (ChannelRef K)
  pkeyIndex : Table ℕ K
  created : List (ChannelRef K)
  found : List (ℕ × Option (ChannelRef K))

namespace ChannelMap

/-- Between two blocks of a call. -/
inductive Place (K : Type)
  | idle
  /-- `create`, which has not found the key -/
  | creating (key : K)
  /-- `find_from_addr`, which has found the key of the address -/
  | finding (pkey : ℕ) (key : K)
  deriving DecidableEq, Repr

inductive Action (K : Type)
  | create (key : K)
  /-- the second block of `create`, with the address of the new channel -/
  | insert (pkey : ℕ)
  | find (key : K)
  | findFromAddr (pkey : ℕ)
  /-- the second block of `find_from_addr` -/
  | finish
  | destroy (key : K)
  deriving DecidableEq, Repr

variable {K : Type} [DecidableEq K]

def empty : ChannelMap K := ⟨∅, ∅, [], []⟩

def find (m : ChannelMap K) (key : K) : Option (ChannelRef K) := m.map.get? key

/-- The address of a new channel is not that of a channel in the map. -/
def isFree (m : ChannelMap K) (pkey : ℕ) : Bool := m.map.toList.all fun e ↦ e.2.pkey != pkey

/-- The second block of `create`: `insert` of the map, `set` of the index. -/
def insert (m : ChannelMap K) (c : ChannelRef K) : ChannelMap K :=
  { m with
    map := m.map.emplace c.key c
    pkeyIndex := m.pkeyIndex.insert c.pkey c.key
    created := m.created ++ [c] }

def answer (m : ChannelMap K) (pkey : ℕ) (c : Option (ChannelRef K)) : ChannelMap K :=
  { m with found := m.found ++ [(pkey, c)] }

def destroy (m : ChannelMap K) (key : K) : ChannelMap K :=
  match m.map.get? key with
  | none => m
  | some c =>
      { m with
        map := m.map.erase key
        pkeyIndex := m.pkeyIndex.erase c.pkey
        created := m.created.filter fun d ↦ d.key ≠ key }

/-- The block of a thread; `none` where it is elsewhere. -/
def block (m : ChannelMap K) (p : Place K) : Action K → Option (ChannelMap K × Place K)
  | .create key =>
      match p with
      | .idle => some (m, if (m.map.get? key).isSome then .idle else .creating key)
      | _ => none
  | .insert pkey =>
      match p with
      | .creating key => if m.isFree pkey then some (m.insert ⟨key, pkey⟩, .idle) else none
      | _ => none
  | .find _ =>
      match p with
      | .idle => some (m, .idle)
      | _ => none
  | .findFromAddr pkey =>
      match p with
      | .idle =>
          match m.pkeyIndex.get? pkey with
          | none => some (m.answer pkey none, .idle)
          | some key => some (m, .finding pkey key)
      | _ => none
  | .finish =>
      match p with
      | .finding pkey key => some (m.answer pkey (m.find key), .idle)
      | _ => none
  | .destroy key =>
      match p with
      | .idle => some (m.destroy key, .idle)
      | _ => none

/-! ## What a block can do -/

variable {m m' : ChannelMap K} {p p' : Place K} {a : Action K} {c : ChannelRef K}

theorem block_cases (h : m.block p a = some (m', p')) :
    (m' = m) ∨
    (∃ key pkey, a = .insert pkey ∧ p = .creating key ∧ m.isFree pkey = true ∧
      m' = m.insert ⟨key, pkey⟩) ∨
    (∃ pkey, m' = m.answer pkey none) ∨
    (∃ pkey key, a = .finish ∧ p = .finding pkey key ∧ m' = m.answer pkey (m.find key)) ∨
    ∃ key, m' = m.destroy key := by
  cases a with
  | create key =>
      cases p <;> cases h
      exact .inl rfl
  | insert pkey =>
      cases p with
      | creating key =>
          simp only [block] at h
          split_ifs at h with hfree
          cases h
          exact .inr (.inl ⟨key, pkey, rfl, rfl, hfree, rfl⟩)
      | _ => cases h
  | find key =>
      cases p <;> cases h
      exact .inl rfl
  | findFromAddr pkey =>
      cases p with
      | idle =>
          simp only [block] at h
          split at h <;> cases h
          · exact .inr (.inr (.inl ⟨pkey, rfl⟩))
          · exact .inl rfl
      | _ => cases h
  | finish =>
      cases p with
      | finding pkey key =>
          cases h
          exact .inr (.inr (.inr (.inl ⟨pkey, key, rfl, rfl, rfl⟩)))
      | _ => cases h
  | destroy key =>
      cases p with
      | idle =>
          cases h
          exact .inr (.inr (.inr (.inr ⟨key, rfl⟩)))
      | _ => cases h

/-- The map and the index are one to one; the channels that `create` has returned
are the ones in the map; and what was found by an address has that address. -/
structure OneToOne (m : ChannelMap K) : Prop where
  keys : ∀ key c, m.map.get? key = some c → c.key = key
  index : ∀ pkey key, m.pkeyIndex.get? pkey = some key ↔
    ∃ c, m.map.get? key = some c ∧ c.pkey = pkey
  created : ∀ c ∈ m.created, m.find c.key = some c
  nodup : (m.created.map ChannelRef.key).Nodup
  found : ∀ pkey c, (pkey, some c) ∈ m.found → c.pkey = pkey

/-- Nobody has created the key since `create` has looked for it, and the key that
`find_from_addr` has found is still that of a channel with the address. -/
def Undisturbed (m : ChannelMap K) (p : Place K) : Action K → Prop
  | .insert _ => ∀ key, p = .creating key → m.map.get? key = none
  | .finish => ∀ pkey key, p = .finding pkey key →
      ∀ c, m.map.get? key = some c → c.pkey = pkey
  | _ => True

theorem oneToOne_empty : OneToOne (empty : ChannelMap K) where
  keys key c h := by cases h
  index pkey key := by simp [empty]
  created c h := by cases h
  nodup := List.nodup_nil
  found pkey c h := by cases h

theorem OneToOne.insert (h : OneToOne m) (hnone : m.map.get? c.key = none)
    (hfree : m.isFree c.pkey = true) : OneToOne (m.insert c) := by
  have hmap (key : K) : (m.insert c).map.get? key =
      if key = c.key then some c else m.map.get? key := by
    refine Table.get?_emplace.trans ?_
    rw [hnone, Option.getD_none]
  have hindex (pkey : ℕ) : (m.insert c).pkeyIndex.get? pkey =
      if pkey = c.pkey then some c.key else m.pkeyIndex.get? pkey := Table.get?_insert
  have hother (key : K) (d : ChannelRef K) (hd : m.map.get? key = some d) : d.pkey ≠ c.pkey := by
    have hall := List.all_eq_true.mp hfree (key, d) (Table.mem_toList.mpr hd)
    simpa using hall
  refine ⟨fun key d hd ↦ ?_, fun pkey key ↦ ?_, fun d hd ↦ ?_, ?_, h.found⟩
  · rw [hmap] at hd
    split_ifs at hd with hkey
    · rw [← Option.some.inj hd, hkey]
    · exact h.keys key d hd
  · rw [hindex, hmap]
    split_ifs with hpkey hkey hkey
    · simp [hpkey, hkey]
    · refine iff_of_false (fun heq ↦ hkey (Option.some.inj heq).symm) ?_
      rintro ⟨d, hd, hdpkey⟩
      exact hother key d hd (hdpkey.trans hpkey)
    · refine iff_of_false ?_ ?_
      · rw [h.index]
        rintro ⟨d, hd, -⟩
        rw [hkey, hnone] at hd
        cases hd
      · rintro ⟨d, hd, hdpkey⟩
        obtain rfl := Option.some.inj hd
        exact hpkey hdpkey.symm
    · exact h.index pkey key
  · rw [find, hmap]
    rcases List.mem_append.mp hd with hold | hnew
    · rw [if_neg, ← find, h.created d hold]
      intro hkey
      have hsome := h.created d hold
      rw [find, hkey, hnone] at hsome
      cases hsome
    · rw [List.mem_singleton.mp hnew, if_pos rfl]
  · change ((m.created ++ [c]).map ChannelRef.key).Nodup
    rw [List.map_append, List.nodup_append]
    refine ⟨h.nodup, List.nodup_singleton _, ?_⟩
    rintro key hold _ hnew rfl
    obtain ⟨d, hd, rfl⟩ := List.mem_map.mp hold
    have hsome := h.created d hd
    rw [find, List.mem_singleton.mp hnew, hnone] at hsome
    cases hsome

theorem OneToOne.answer (h : OneToOne m) {pkey : ℕ} {o : Option (ChannelRef K)}
    (ho : ∀ c, o = some c → c.pkey = pkey) : OneToOne (m.answer pkey o) := by
  refine ⟨h.keys, h.index, h.created, h.nodup, fun pkey' c hc ↦ ?_⟩
  rcases List.mem_append.mp hc with hold | hnew
  · exact h.found pkey' c hold
  · cases List.mem_singleton.mp hnew
    exact ho c rfl

theorem OneToOne.destroy (h : OneToOne m) (key : K) : OneToOne (m.destroy key) := by
  unfold ChannelMap.destroy
  cases hget : m.map.get? key with
  | none => exact h
  | some c =>
      refine ⟨fun k d hd ↦ ?_, fun pkey k ↦ ?_, fun d hd ↦ ?_, ?_, h.found⟩
      · rw [Table.get?_erase] at hd
        split_ifs at hd
        exact h.keys k d hd
      · rw [Table.get?_erase, Table.get?_erase]
        split_ifs with hpkey hk hk
        · simp
        · refine iff_of_false (by simp) ?_
          rintro ⟨d, hd, hdpkey⟩
          -- the index has one key for each address
          have hkey := (h.index pkey k).mpr ⟨d, hd, hdpkey⟩
          rw [hpkey, (h.index c.pkey key).mpr ⟨c, hget, rfl⟩] at hkey
          exact hk (Option.some.inj hkey).symm
        · refine iff_of_false ?_ (by simp)
          rw [h.index, hk, hget]
          rintro ⟨d, hd, hdpkey⟩
          obtain rfl := Option.some.inj hd
          exact hpkey hdpkey.symm
        · exact h.index pkey k
      · obtain ⟨hmem, hkey⟩ := List.mem_filter.mp hd
        refine Table.get?_erase.trans ?_
        rw [if_neg (of_decide_eq_true hkey)]
        exact h.created d hmem
      · exact (List.filter_sublist.map ChannelRef.key).nodup h.nodup

theorem OneToOne.block (h : OneToOne m) (hok : m.Undisturbed p a)
    (hblock : m.block p a = some (m', p')) : OneToOne m' := by
  rcases block_cases hblock with rfl | ⟨key, pkey, rfl, rfl, hfree, rfl⟩ | ⟨pkey, rfl⟩ |
    ⟨pkey, key, rfl, rfl, rfl⟩ | ⟨key, rfl⟩
  · exact h
  · exact h.insert (hok key rfl) hfree
  · exact h.answer nofun
  · exact h.answer (hok pkey key rfl)
  · exact h.destroy key

/-! ## Runs -/

variable {ι : Type} [DecidableEq ι]

/-- No call under way. -/
def start : Threads ι (ChannelMap K) (Place K) := ⟨empty, fun _ ↦ .idle⟩

/-- In a run in which nobody creates a key between the two blocks of a `create` of it,
and the key of an address stays with a channel of that address between the two blocks
of `find_from_addr`: the index has the addresses and keys of the channels in the map;
of the calls of `create` for one key that returned a channel since the key was
destroyed there is one at most, and `find` gives its channel; and `find_from_addr`
gives channels with the address that was asked for. -/
theorem channels_one_to_one (t : Threads ι (ChannelMap K) (Place K))
    (h : Reaches (Threads.next block) (Threads.Each Undisturbed) start t) :
    (∀ pkey key, t.shared.pkeyIndex.get? pkey = some key ↔
      ∃ c, t.shared.find key = some c ∧ c.key = key ∧ c.pkey = pkey) ∧
    (t.shared.created.map ChannelRef.key).Nodup ∧
    (∀ c ∈ t.shared.created, t.shared.find c.key = some c) ∧
    ∀ pkey c, (pkey, some c) ∈ t.shared.found → c.pkey = pkey := by
  have hone : OneToOne t.shared :=
    Threads.reaches_shared h oneToOne_empty fun _ _ _ _ _ hm hok hblock ↦ hm.block hok hblock
  refine ⟨fun pkey key ↦ ?_, hone.nodup, hone.created, hone.found⟩
  rw [hone.index]
  constructor
  · rintro ⟨c, hc, hpkey⟩
    exact ⟨c, hc, hone.keys key c hc, hpkey⟩
  · rintro ⟨c, hc, -, hpkey⟩
    exact ⟨c, hc, hpkey⟩

/-- One thread creates a channel that another one finds by its address. -/
theorem channels_one_to_one_found : ∃ t : Threads Bool (ChannelMap ℕ) (Place ℕ),
    t.shared.found = [(10, some ⟨1, 10⟩)] ∧
      ∀ pkey c, (pkey, some c) ∈ t.shared.found → c.pkey = pkey := by
  have hrun : ∃ t : Threads Bool (ChannelMap ℕ) (Place ℕ),
      Reaches (Threads.next block) (Threads.Each Undisturbed) start t ∧
        (t.shared.found == [(10, some ⟨1, 10⟩)]) = true :=
    exists_reaches_checked [(true, .create 1), (true, .insert 10), (false, .findFromAddr 10),
      (true, .create 2), (false, .finish), (true, .insert 20)]
      (fun t a ↦ match t.place a.1, a.2 with
        | .creating key, .insert _ => (t.shared.map.get? key).isNone
        | .finding pkey key, .finish => (t.shared.map.get? key).all fun c ↦ c.pkey == pkey
        | _, .insert _ => false
        | _, .finish => false
        | _, _ => true)
      (by
        rintro t ⟨i, a⟩ hcheck
        cases a with
        | insert pkey =>
            intro key hp
            simpa [show t.place i = _ from hp] using hcheck
        | finish =>
            intro pkey key hp c hc
            simpa [show t.place i = _ from hp, hc] using hcheck
        | _ => trivial)
      (by decide)
  obtain ⟨t, hreach, hlast⟩ := hrun
  exact ⟨t, beq_iff_eq.mp hlast, (channels_one_to_one t hreach).2.2.2⟩

/-- Two calls of `create` for one key return two channels, and the index gets an
address that is not in the map; and an address finds the channel of another. -/
theorem not_channels_one_to_one :
    (¬ ∀ t : Threads Bool (ChannelMap ℕ) (Place ℕ),
      Reaches (Threads.next block) (fun _ _ ↦ True) start t →
        (t.shared.created.map ChannelRef.key).Nodup ∧
        ∀ pkey key, t.shared.pkeyIndex.get? pkey = some key →
          ∃ c, t.shared.find key = some c ∧ c.pkey = pkey) ∧
    ¬ ∀ t : Threads Bool (ChannelMap ℕ) (Place ℕ),
      Reaches (Threads.next block) (fun _ _ ↦ True) start t →
        ∀ pkey c, (pkey, some c) ∈ t.shared.found → c.pkey = pkey := by
  constructor
  · intro hall
    have hrun : ∃ t : Threads Bool (ChannelMap ℕ) (Place ℕ),
        Reaches (Threads.next block) (fun _ _ ↦ True) start t ∧
          (t.shared.created == [⟨1, 10⟩, ⟨1, 20⟩]) = true :=
      exists_reaches [(true, .create 1), (false, .create 1), (true, .insert 10),
        (false, .insert 20)] (fun _ _ _ ↦ trivial) (by decide)
    obtain ⟨t, hreach, hlast⟩ := hrun
    have hnodup := (hall t hreach).1
    rw [beq_iff_eq.mp hlast] at hnodup
    exact absurd hnodup (by decide)
  · intro hall
    have hrun : ∃ t : Threads Bool (ChannelMap ℕ) (Place ℕ),
        Reaches (Threads.next block) (fun _ _ ↦ True) start t ∧
          (t.shared.found == [(10, some ⟨1, 20⟩)]) = true :=
      exists_reaches [(true, .create 1), (true, .insert 10), (false, .findFromAddr 10),
        (true, .destroy 1), (true, .create 1), (true, .insert 20), (false, .finish)]
        (fun _ _ _ ↦ trivial) (by decide)
    obtain ⟨t, hreach, hlast⟩ := hrun
    have hfound := hall t hreach 10 ⟨1, 20⟩
    rw [beq_iff_eq.mp hlast] at hfound
    exact absurd (hfound List.mem_cons_self) (by decide)

end ChannelMap

end WiseKernel.Core
