import Mathlib.Data.List.AList
import Mathlib.Tactic.Common

/-!
# Tables

Finite maps that can be traversed: association lists with one entry per key.
The order of the entries stands for the order, which nobody relies on, in which
a hash table is traversed.
-/

namespace WiseKernel.Lib

/-- A finite map from `K` to `V`. -/
def Table (K V : Type*) := AList fun _ : K ↦ V

namespace Table

variable {K V : Type*}

def empty : Table K V := (∅ : AList fun _ : K ↦ V)

instance : EmptyCollection (Table K V) := ⟨empty⟩

def toList (t : Table K V) : List (K × V) := t.entries.map fun e ↦ (e.1, e.2)

theorem keys_nodup (t : Table K V) : (t.toList.map Prod.fst).Nodup := by
  simp only [toList, List.map_map]
  exact AList.keys_nodup t

/-- Every value changed by a function of its key. -/
def mapValues (t : Table K V) (g : K → V → V) : Table K V :=
  ⟨t.entries.map fun e ↦ ⟨e.1, g e.1 e.2⟩, by
    have hkeys : (t.entries.map fun e ↦ (⟨e.1, g e.1 e.2⟩ : Sigma fun _ : K ↦ V)).keys =
        t.entries.keys := by
      simp [List.keys]
    rw [List.NodupKeys, hkeys]
    exact t.nodupKeys⟩

@[simp] theorem toList_empty : (∅ : Table K V).toList = [] := rfl

variable [DecidableEq K]

def get? (t : Table K V) (k : K) : Option V := AList.lookup k t

def insert (t : Table K V) (k : K) (v : V) : Table K V := AList.insert k v t

def erase (t : Table K V) (k : K) : Table K V := AList.erase k t

/-- A new entry, unless the key has one. -/
def emplace (t : Table K V) (k : K) (v : V) : Table K V :=
  if (t.get? k).isSome then t else t.insert k v

/-- The value of `k`, if there is one, changed by `f`. -/
def modify (t : Table K V) (k : K) (f : V → V) : Table K V :=
  t.mapValues fun a v ↦ if a = k then f v else v

section

variable {t : Table K V} {k a : K} {v : V}

@[simp] theorem get?_empty : (∅ : Table K V).get? a = none := rfl

theorem get?_insert : (t.insert k v).get? a = if a = k then some v else t.get? a := by
  split_ifs with h
  · subst h
    exact AList.lookup_insert t
  · exact AList.lookup_insert_ne h

theorem get?_emplace :
    (t.emplace k v).get? a = if a = k then some ((t.get? k).getD v) else t.get? a := by
  cases h : t.get? k with
  | none =>
      simp only [emplace, h, Option.isSome_none, Bool.false_eq_true, if_false, Option.getD_none]
      exact get?_insert
  | some w =>
      simp only [emplace, h, Option.isSome_some, if_true, Option.getD_some]
      split_ifs with ha
      · rw [ha, h]
      · rfl

theorem get?_erase : (t.erase k).get? a = if a = k then none else t.get? a := by
  split_ifs with h
  · subst h
    exact AList.lookup_erase a t
  · exact AList.lookup_erase_ne h

theorem mem_toList : (k, v) ∈ t.toList ↔ t.get? k = some v := by
  have h := AList.mem_lookup_iff (a := k) (b := v) (s := t)
  rw [Option.mem_def] at h
  rw [get?, h, toList, List.mem_map]
  constructor
  · rintro ⟨⟨k', v'⟩, hmem, heq⟩
    cases heq
    exact hmem
  · intro hmem
    exact ⟨_, hmem, rfl⟩

theorem get?_mapValues {g : K → V → V} : (t.mapValues g).get? a = (t.get? a).map (g a) :=
  List.dlookup_map₂ a

theorem get?_modify {f : V → V} :
    (t.modify k f).get? a = if a = k then (t.get? a).map f else t.get? a := by
  rw [modify, get?_mapValues]
  split_ifs with h
  · rfl
  · simp

/-- The number of entries. -/
def size (t : Table K V) : ℕ := t.toList.length

/-- An insertion replaces the entry of its key. -/
theorem toList_insert : (t.insert k v).toList = (k, v) :: (t.erase k).toList := by
  have hentries : (t.insert k v).entries = ⟨k, v⟩ :: (t.erase k).entries := AList.entries_insert
  rw [toList, hentries, List.map_cons, toList]

theorem erase_of_none (h : t.get? k = none) : t.erase k = t := by
  apply AList.ext
  exact List.kerase_of_notMem_keys (AList.lookup_eq_none.mp h)

theorem toList_perm_erase (h : t.get? k = some v) :
    t.toList.Perm ((k, v) :: (t.erase k).toList) := by
  have hmem : k ∈ t.entries.keys := by
    have hisSome : (t.get? k).isSome := by rw [h]; rfl
    exact AList.lookup_isSome.mp hisSome
  obtain ⟨v', l₁, l₂, -, hentries, herase⟩ := List.exists_of_kerase hmem
  have herase' : (t.erase k).entries = l₁ ++ l₂ := herase
  have hv : v' = v := by
    have hget : t.get? k = some v' := by
      rw [← mem_toList, toList, hentries]
      simp
    rw [h] at hget
    exact (Option.some.inj hget).symm
  rw [toList, toList, hentries, herase', hv, List.map_append, List.map_append, List.map_cons]
  exact List.perm_middle

theorem size_insert (h : t.get? k = none) : (t.insert k v).size = t.size + 1 := by
  rw [size, toList_insert, List.length_cons, erase_of_none h, size]

theorem size_erase (h : t.get? k = some v) : (t.erase k).size + 1 = t.size := by
  have hlength := (toList_perm_erase h).length_eq
  rw [List.length_cons] at hlength
  exact hlength.symm

theorem size_erase_of_none (h : t.get? k = none) : (t.erase k).size = t.size := by
  rw [erase_of_none h]

theorem eq_empty_of_size (h : t.size = 0) : t = ∅ := by
  have hentries : t.entries = [] := by
    simpa [size, toList] using h
  exact AList.ext hentries

end

end Table

end WiseKernel.Lib
