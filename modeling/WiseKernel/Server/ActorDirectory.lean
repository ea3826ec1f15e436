import WiseKernel.Lib.Runs
import WiseKernel.Lib.Table

/-!
# The actor directory

`actor_directory` keeps the actors by id and an index from names to ids.  The
name of an actor is put on the copy of the reference that `add` was called
with, after another copy went into the map, so `del` finds the name only if the
caller has put it there; and `cleanup` leaves the index alone.
-/

namespace WiseKernel.Server

open WiseKernel.Lib

/-- `actor::mode`. -/
inductive Mode
  | none
  | local
  | peer
  | client
  deriving DecidableEq, Repr

/-- `actor::ref`, over the pointees of `actor_` and `protocol_`. -/
structure ActorRef (A P : Type) where
  actor : Option A
  id : UInt64
  protocol : Option P
  mode : Mode
  name : String
  deriving DecidableEq, Repr

namespace ActorRef

variable {A P : Type}

/-- `ref()`. -/
def null : ActorRef A P := ⟨.none, 0, .none, .none, ""⟩

def setName (r : ActorRef A P) (name : String) : ActorRef A P := { r with name := name }

def hasName (r : ActorRef A P) : Bool := 0 < r.name.length

/-- `operator bool`. -/
def toBool (r : ActorRef A P) : Bool :=
  if r.id = 0 then false
  else if r.mode = .local then r.actor.isSome
  else r.protocol.isSome

end ActorRef

/-- `actor_directory`: `actors_` and `name_index_`. -/
structure ActorDirectory (A P : Type) where
  actors : Table UInt64 (ActorRef A P)
  nameIndex : Table String UInt64

namespace ActorDirectory

variable {A P : Type}

inductive Error
  /-- `"duplicate id for actor. id:{:x}"` -/
  | duplicateId (id : UInt64)
  /-- `"name: {} already exists in index"` -/
  | nameExists (name : String)
  deriving DecidableEq, Repr

def empty : ActorDirectory A P := ⟨∅, ∅⟩

def has (d : ActorDirectory A P) (id : UInt64) : Bool := (d.actors.get? id).isSome

/-- `get` by id. -/
def get (d : ActorDirectory A P) (id : UInt64) : ActorRef A P :=
  (d.actors.get? id).getD .null

/-- `get` by name; `index::get` answers 0 for an unknown name. -/
def getNamed (d : ActorDirectory A P) (name : String) : ActorRef A P :=
  d.get ((d.nameIndex.get? name).getD 0)

/-- `add` without a name. -/
def add (d : ActorDirectory A P) (r : ActorRef A P) :
    Except Error Bool × ActorDirectory A P :=
  if d.has r.id then (.error (.duplicateId r.id), d)
  else (.ok true, { d with actors := d.actors.insert r.id r })

/-- `add` with a name; the reference in the map is a copy made before
`set_name`. -/
def addNamed (d : ActorDirectory A P) (name : String) (r : ActorRef A P) :
    Except Error Bool × ActorDirectory A P :=
  if (d.nameIndex.get? name).isSome then (.error (.nameExists name), d)
  else
    match d.add r with
    | (.ok true, d) =>
        let r := r.setName name
        (.ok true, { d with nameIndex := d.nameIndex.insert name r.id })
    | (.ok false, d) => (.ok false, d)
    | (.error e, d) => (.error e, d)

def del (d : ActorDirectory A P) (id : UInt64) : ActorDirectory A P :=
  let r := d.get id
  let d := { d with actors := d.actors.erase id }
  if r.hasName then { d with nameIndex := d.nameIndex.erase r.name } else d

def cleanup (d : ActorDirectory A P) : ActorDirectory A P := { d with actors := ∅ }

/-- A call on the directory. -/
inductive Op (A P : Type)
  | add (r : ActorRef A P)
  | addNamed (name : String) (r : ActorRef A P)
  | del (id : UInt64)
  | cleanup

/-- The directory with what it stands for: the live actors, and the name that
each was added under, if any. -/
structure History (A P : Type) where
  dir : ActorDirectory A P
  live : Table UInt64 (Option String)

namespace History

def initial : History A P := ⟨.empty, ∅⟩

/-- The outcome of a call and the directory behind it. -/
def outcome (d : ActorDirectory A P) : Op A P → Except Error Bool × ActorDirectory A P
  | .add r => d.add r
  | .addNamed name r => d.addNamed name r
  | .del id => (.ok true, d.del id)
  | .cleanup => (.ok true, d.cleanup)

/-- The live actors after a call that went through. -/
def relive (live : Table UInt64 (Option String)) : Op A P → Table UInt64 (Option String)
  | .add r => live.insert r.id .none
  | .addNamed name r => live.insert r.id (some name)
  | .del id => live.erase id
  | .cleanup => ∅

def step (h : History A P) (op : Op A P) : History A P where
  dir := (outcome h.dir op).2
  live := if (outcome h.dir op).1 = .ok true then relive h.live op else h.live

/-- What the directory is for, at one call. -/
structure Consistent (h : History A P) (op : Op A P) : Prop where
  /-- the index has exactly the names of the live actors -/
  index : ∀ name id, (h.step op).dir.nameIndex.get? name = some id ↔
    (h.step op).live.get? id = some (some name)
  actors : ∀ id, (h.step op).dir.has id = ((h.step op).live.get? id).isSome
  agree : ∀ name id, (h.step op).live.get? id = some (some name) →
    (h.step op).dir.getNamed name = (h.step op).dir.get id
  absent : ∀ name, (∀ id, (h.step op).live.get? id ≠ some (some name)) →
    ((h.step op).dir.getNamed name).toBool = false
  failed : (outcome h.dir op).1 ≠ .ok true → (h.step op).dir = h.dir
  deleted : ∀ id name, op = .del id → h.live.get? id = some (some name) →
    ((h.step op).dir.getNamed name).toBool = false ∧
      ∀ r, (h.step op).dir.has r.id = false → ((h.step op).dir.addNamed name r).1 = .ok true
  cleaned : op = .cleanup → (h.step op).dir.actors = ∅ ∧ (h.step op).dir.nameIndex = ∅

/-- The calls that keep the index right: the reference that `del` finds carries
the name that the index has for its id and no other name of the index, and
`cleanup` comes when no name is registered. -/
def NamesKept (h : History A P) : Op A P → Prop
  | .add _ | .addNamed _ _ => True
  | .del id => ∀ name i, h.dir.nameIndex.get? name = some i →
      ((h.dir.get id).hasName = true ∧ (h.dir.get id).name = name ↔ i = id)
  | .cleanup => h.dir.nameIndex = ∅

/-- The two maps belong together. -/
structure Inv (h : History A P) : Prop where
  index : ∀ name id, h.dir.nameIndex.get? name = some id ↔ h.live.get? id = some (some name)
  actors : ∀ id, h.dir.has id = (h.live.get? id).isSome
  ids : ∀ id r, h.dir.actors.get? id = some r → r.id = id

theorem inv_initial : Inv (initial : History A P) where
  index name id := by simp [initial, empty]
  actors id := by simp [initial, empty, has]
  ids id r h := by simp [initial, empty] at h

variable {h : History A P}

/-- A name that the index does not have finds nothing: the reference under the
id 0, if there is one, does not count as an actor. -/
theorem Inv.getNamed_absent (hinv : Inv h) {name : String}
    (hname : h.dir.nameIndex.get? name = .none) : (h.dir.getNamed name).toBool = false := by
  have hid : (h.dir.getNamed name).id = 0 := by
    rw [getNamed, hname, Option.getD_none, get]
    cases hget : h.dir.actors.get? 0 with
    | none => rfl
    | some r => exact hinv.ids 0 r hget
  simp [ActorRef.toBool, hid]

theorem Inv.getNamed_eq (hinv : Inv h) {name : String} {id : UInt64}
    (hlive : h.live.get? id = some (some name)) : h.dir.getNamed name = h.dir.get id := by
  rw [getNamed, (hinv.index name id).mpr hlive, Option.getD_some]

/-! ## One call -/

theorem step_add (r : ActorRef A P) :
    h.step (.add r) = h ∨ h.dir.has r.id = false ∧
      h.step (.add r) =
        ⟨{ h.dir with actors := h.dir.actors.insert r.id r }, h.live.insert r.id .none⟩ := by
  cases hhas : h.dir.has r.id with
  | true =>
      left
      simp [step, outcome, ActorDirectory.add, hhas]
  | false =>
      right
      exact ⟨rfl, by simp [step, outcome, ActorDirectory.add, hhas, relive]⟩

theorem step_addNamed (name : String) (r : ActorRef A P) :
    h.step (.addNamed name r) = h ∨
      h.dir.has r.id = false ∧ h.dir.nameIndex.get? name = .none ∧
        h.step (.addNamed name r) =
          ⟨⟨h.dir.actors.insert r.id r, h.dir.nameIndex.insert name r.id⟩,
            h.live.insert r.id (some name)⟩ := by
  cases hname : h.dir.nameIndex.get? name with
  | some i =>
      left
      simp [step, outcome, ActorDirectory.addNamed, hname]
  | none =>
      cases hhas : h.dir.has r.id with
      | true =>
          left
          simp [step, outcome, ActorDirectory.addNamed, hname, ActorDirectory.add, hhas]
      | false =>
          right
          refine ⟨rfl, rfl, ?_⟩
          simp [step, outcome, ActorDirectory.addNamed, hname, ActorDirectory.add, hhas, relive,
            ActorRef.setName]

theorem step_del_live (id : UInt64) : (h.step (.del id)).live = h.live.erase id := by
  simp [step, outcome, relive]

theorem step_del_actors (id : UInt64) :
    (h.step (.del id)).dir.actors = h.dir.actors.erase id := by
  simp only [step, outcome, ActorDirectory.del]
  split_ifs <;> rfl

/-- `del` takes out of the index the name that the stored reference carries. -/
theorem step_del_nameIndex (id : UInt64) (name : String) :
    (h.step (.del id)).dir.nameIndex.get? name =
      if (h.dir.get id).hasName = true ∧ (h.dir.get id).name = name then .none
      else h.dir.nameIndex.get? name := by
  simp only [step, outcome, ActorDirectory.del]
  by_cases hname : (h.dir.get id).hasName = true
  · simp only [hname, if_true, Table.get?_erase, true_and]
    simp only [eq_comm]
  · simp [hname]

theorem Inv.add (hinv : Inv h) (r : ActorRef A P) : Inv (h.step (.add r)) := by
  rcases step_add (h := h) r with heq | ⟨hhas, heq⟩
  · rwa [heq]
  · have hfree : h.live.get? r.id = .none := by
      simpa [hinv.actors] using hhas
    rw [heq]
    refine ⟨fun name id ↦ ?_, fun id ↦ ?_, fun id r' ↦ ?_⟩
    · rw [hinv.index, Table.get?_insert]
      split_ifs with hid
      · simp [hid, hfree]
      · exact Iff.rfl
    · simp only [has, Table.get?_insert]
      split_ifs with hid
      · rfl
      · exact hinv.actors id
    · simp only [Table.get?_insert]
      split_ifs with hid
      · intro hr
        rw [← Option.some.inj hr, hid]
      · exact hinv.ids id r'

theorem Inv.addNamed (hinv : Inv h) (name : String) (r : ActorRef A P) :
    Inv (h.step (.addNamed name r)) := by
  rcases step_addNamed (h := h) name r with heq | ⟨hhas, hname, heq⟩
  · rwa [heq]
  · have hfree : h.live.get? r.id = .none := by
      simpa [hinv.actors] using hhas
    have hnew : ∀ id, h.live.get? id ≠ some (some name) := by
      intro id hlive
      rw [← hinv.index, hname] at hlive
      exact absurd hlive (by simp)
    rw [heq]
    refine ⟨fun name' id ↦ ?_, fun id ↦ ?_, fun id r' ↦ ?_⟩
    · simp only [Table.get?_insert]
      by_cases hn : name' = name
      · subst hn
        by_cases hid : id = r.id
        · simp [hid]
        · simp [hid, hnew, Ne.symm hid]
      · by_cases hid : id = r.id
        · simp [hn, hid, hinv.index, hfree, Ne.symm hn]
        · simp [hn, hid, hinv.index]
    · simp only [has, Table.get?_insert]
      split_ifs with hid
      · rfl
      · exact hinv.actors id
    · simp only [Table.get?_insert]
      split_ifs with hid
      · intro hr
        rw [← Option.some.inj hr, hid]
      · exact hinv.ids id r'

/-- After `del` the index is right exactly when the stored reference carried the
registered name. -/
theorem Inv.del_index_iff (hinv : Inv h) (id : UInt64) :
    (∀ name i, (h.step (.del id)).dir.nameIndex.get? name = some i ↔
      (h.step (.del id)).live.get? i = some (some name)) ↔ NamesKept h (.del id) := by
  simp only [step_del_nameIndex, step_del_live, Table.get?_erase, NamesKept]
  constructor
  · intro hindex name i hi
    have hlive := (hinv.index name i).mp hi
    have h' := hindex name i
    by_cases hid : i = id
    · subst hid
      refine iff_of_true ?_ rfl
      by_contra hnot
      simp [hnot, hi] at h'
    · refine iff_of_false ?_ hid
      intro hcarried
      simp [hcarried, hid, hlive] at h'
  · intro hkept name i
    by_cases hi : h.dir.nameIndex.get? name = some i
    · have hlive := (hinv.index name i).mp hi
      by_cases hid : i = id
      · have hcarried := (hkept name i hi).mpr hid
        simp [hcarried, hid]
      · have hcarried := mt (hkept name i hi).mp hid
        simp [hcarried, hid, hi, hlive]
    · have hlive := mt (hinv.index name i).mpr hi
      have hnone : (if (h.dir.get id).hasName = true ∧ (h.dir.get id).name = name then .none
          else h.dir.nameIndex.get? name) ≠ some i := by
        split_ifs
        · simp
        · exact hi
      have hnone' : (if i = id then .none else h.live.get? i) ≠ some (some name) := by
        split_ifs
        · simp
        · exact hlive
      exact iff_of_false hnone hnone'

theorem Inv.step (hinv : Inv h) {op : Op A P} (hkept : NamesKept h op) : Inv (h.step op) := by
  cases op with
  | add r => exact hinv.add r
  | addNamed name r => exact hinv.addNamed name r
  | del id =>
      refine ⟨(hinv.del_index_iff id).mpr hkept, fun i ↦ ?_, fun i r ↦ ?_⟩
      · rw [has, step_del_actors, step_del_live, Table.get?_erase, Table.get?_erase]
        split_ifs
        · rfl
        · exact hinv.actors i
      · rw [step_del_actors, Table.get?_erase]
        split_ifs
        · simp
        · exact hinv.ids i r
  | cleanup =>
      have hempty : h.dir.nameIndex = ∅ := hkept
      refine ⟨fun name i ↦ ?_, fun i ↦ ?_, fun i r ↦ ?_⟩
      · simp [History.step, outcome, cleanup, hempty, relive]
      · simp [History.step, outcome, cleanup, has, relive]
      · simp [History.step, outcome, cleanup]

/-- A call that throws or returns false changes nothing. -/
theorem outcome_failed {d : ActorDirectory A P} {op : Op A P}
    (hop : (outcome d op).1 ≠ .ok true) : (outcome d op).2 = d := by
  cases op with
  | add r =>
      simp only [outcome, ActorDirectory.add] at hop ⊢
      split_ifs at hop ⊢
      · rfl
      · simp at hop
  | addNamed name r =>
      simp only [outcome, ActorDirectory.addNamed, ActorDirectory.add] at hop ⊢
      split_ifs at hop ⊢
      · rfl
      · rfl
      · simp at hop
  | del id => exact absurd rfl hop
  | cleanup => exact absurd rfl hop

theorem Inv.consistent (hinv : Inv h) {op : Op A P} (hkept : NamesKept h op) :
    Consistent h op := by
  have hstep := hinv.step hkept
  have hnone : ∀ name, (∀ id, (h.step op).live.get? id ≠ some (some name)) →
      (h.step op).dir.nameIndex.get? name = .none := by
    intro name hlive
    rw [Option.eq_none_iff_forall_ne_some]
    intro id hid
    exact hlive id ((hstep.index name id).mp hid)
  refine ⟨hstep.index, hstep.actors, fun name id ↦ hstep.getNamed_eq,
    fun name hlive ↦ hstep.getNamed_absent (hnone name hlive), outcome_failed, ?_, ?_⟩
  · rintro id name rfl hlive
    have hgone : ∀ i, (h.step (.del id)).live.get? i ≠ some (some name) := by
      intro i
      rw [step_del_live, Table.get?_erase]
      split_ifs with hi
      · simp
      · -- the index is a function, so no other actor has the name
        intro hother
        have h₁ := (hinv.index name i).mpr hother
        have h₂ := (hinv.index name id).mpr hlive
        exact hi (Option.some.inj (h₁.symm.trans h₂))
    refine ⟨hstep.getNamed_absent (hnone name hgone), fun r hr ↦ ?_⟩
    simp [ActorDirectory.addNamed, hnone name hgone, ActorDirectory.add, hr]
  · rintro rfl
    exact ⟨rfl, hkept⟩

theorem Inv.kept (hinv : Inv h) {op : Op A P} (hop : Consistent h op) : NamesKept h op := by
  cases op with
  | add r => trivial
  | addNamed name r => trivial
  | del id => exact (hinv.del_index_iff id).mp hop.index
  | cleanup => exact (hop.cleaned rfl).2

/-- The two maps agree after every call of a history exactly when every call
keeps the names. -/
theorem consistent_iff_namesKept (ops : List (Op A P)) :
    Throughout step Consistent (initial : History A P) ops ↔
      Throughout step NamesKept initial ops :=
  throughout_congr inv_initial (fun _ _ hinv hkept ↦ hinv.step hkept)
    fun _ _ hinv ↦ ⟨hinv.kept, hinv.consistent⟩

/-- An actor is added under a name and deleted: its name stays. -/
theorem not_consistent_del :
    ¬ Throughout step Consistent (initial : History Unit Unit)
      [.addNamed "a" ⟨some (), 1, .none, .local, ""⟩, .del 1] := by
  rintro ⟨-, hdel, -⟩
  exact absurd ((hdel.index "a" 1).mp (by decide)) (by decide)

end History

end ActorDirectory

end WiseKernel.Server
