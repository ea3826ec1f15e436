import WiseKernel.Lib.Threads
import WiseKernel.Server.ActorDirectory

/-!
# Registering actors from several threads

The calls on an `actor_directory`, cut at its locks: `add` looks for the id under one
lock and inserts under another, and with a name it takes two more.
-/

namespace WiseKernel.Server

open WiseKernel.Lib

namespace ActorDirectory

variable {A P : Type}

/-- The directory with what its calls have done: the ids that were inserted by calls
of `add` and not deleted since (such a call can only return true), the names and ids
of the calls with a name that have returned true, unless the name was unset since,
and the exceptions. -/
structure Registry (A P : Type) where
  dir : ActorDirectory A P
  entered : List UInt64
  named : List (String × UInt64)
  thrown : List Error

/-- Between two blocks of a call. -/
inductive Place (A P : Type)
  | idle
  /-- `add` with a name that the index does not have -/
  | naming (name : String) (r : ActorRef A P)
  /-- `add` of an id that the map does not have -/
  | adding (name : Option String) (r : ActorRef A P)
  /-- `add` with a name, after the insertion -/
  | indexing (name : String) (r : ActorRef A P)
  /-- `get` by name, with the id that the index has -/
  | getting (id : UInt64)
  /-- `del`, with the reference that it has found -/
  | deleting (id : UInt64) (r : ActorRef A P)
  deriving DecidableEq

/-- The first block of a call, or the next one of a call under way. -/
inductive Action (A P : Type)
  | has (id : UInt64)
  | add (r : ActorRef A P)
  | addNamed (name : String) (r : ActorRef A P)
  | get (id : UInt64)
  | getNamed (name : String)
  | del (id : UInt64)
  | proceed

namespace Registry

def initial : Registry A P := ⟨.empty, [], [], []⟩

def throws (s : Registry A P) (e : Error) : Registry A P := { s with thrown := s.thrown ++ [e] }

/-- The block of `add` that looks for the id. -/
def checkId (s : Registry A P) (name : Option String) (r : ActorRef A P) :
    Registry A P × Place A P :=
  if s.dir.has r.id then (s.throws (.duplicateId r.id), .idle) else (s, .adding name r)

/-- The block that inserts; `insert` of a map keeps the entry that it has. -/
def insert (s : Registry A P) (r : ActorRef A P) : Registry A P :=
  { s with
    dir := { s.dir with actors := s.dir.actors.emplace r.id r }
    entered := s.entered ++ [r.id] }

/-- The block that sets the name. -/
def index (s : Registry A P) (name : String) (r : ActorRef A P) : Registry A P :=
  { s with
    dir := { s.dir with nameIndex := s.dir.nameIndex.insert name r.id }
    named := s.named ++ [(name, r.id)] }

/-- The second block of `del`. -/
def erase (s : Registry A P) (id : UInt64) (r : ActorRef A P) : Registry A P :=
  let s := { s with
    dir := { s.dir with actors := s.dir.actors.erase id }
    entered := s.entered.filter (· ≠ id) }
  if r.hasName then
    { s with
      dir := { s.dir with nameIndex := s.dir.nameIndex.erase r.name }
      named := s.named.filter fun p ↦ p.1 ≠ r.name }
  else s

/-- The block of a thread; `none` where it is elsewhere. -/
def block (s : Registry A P) : Place A P → Action A P → Option (Registry A P × Place A P)
  | .idle, .has _ => some (s, .idle)
  | .idle, .add r => some (s.checkId none r)
  | .idle, .addNamed name r =>
      if (s.dir.nameIndex.get? name).isSome then some (s.throws (.nameExists name), .idle)
      else some (s, .naming name r)
  | .idle, .get _ => some (s, .idle)
  | .idle, .getNamed name => some (s, .getting ((s.dir.nameIndex.get? name).getD 0))
  | .idle, .del id => some (s, .deleting id (s.dir.get id))
  | .naming name r, .proceed => some (s.checkId (some name) r)
  | .adding none r, .proceed => some (s.insert r, .idle)
  | .adding (some name) r, .proceed => some (s.insert r, .indexing name r)
  | .indexing name r, .proceed => some (s.index name (r.setName name), .idle)
  | .getting _, .proceed => some (s, .idle)
  | .deleting id r, .proceed => some (s.erase id r, .idle)
  | _, _ => none

/-! ## What a block can do -/

variable {s s' : Registry A P} {p p' : Place A P} {a : Action A P} {r : ActorRef A P}

theorem checkId_fst (s : Registry A P) (name : Option String) (r : ActorRef A P) :
    (s.checkId name r).1 = s ∨ (s.checkId name r).1 = s.throws (.duplicateId r.id) := by
  unfold checkId
  split_ifs
  · exact .inr rfl
  · exact .inl rfl

theorem block_cases (h : s.block p a = some (s', p')) :
    s' = s ∨ (∃ e, s' = s.throws e) ∨
    (∃ name r, p = .adding name r ∧ a = .proceed ∧ s' = s.insert r) ∨
    (∃ name r, p = .indexing name r ∧ a = .proceed ∧ s' = s.index name (r.setName name)) ∨
    ∃ id r, s' = s.erase id r := by
  have hcheck (name : Option String) (r : ActorRef A P) (heq : s.checkId name r = (s', p')) :
      s' = s ∨ ∃ e, s' = s.throws e := by
    have hfst := s.checkId_fst name r
    rw [heq] at hfst
    exact hfst.imp_right fun h ↦ ⟨_, h⟩
  unfold block at h
  split at h
  · cases h
    exact .inl rfl
  · exact (hcheck _ _ (Option.some.inj h)).imp_right .inl
  · split_ifs at h <;> cases h
    · exact .inr (.inl ⟨_, rfl⟩)
    · exact .inl rfl
  · cases h
    exact .inl rfl
  · cases h
    exact .inl rfl
  · cases h
    exact .inl rfl
  · exact (hcheck _ _ (Option.some.inj h)).imp_right .inl
  · cases h
    exact .inr (.inr (.inl ⟨_, _, rfl, rfl, rfl⟩))
  · cases h
    exact .inr (.inr (.inl ⟨_, _, rfl, rfl, rfl⟩))
  · cases h
    exact .inr (.inr (.inr (.inl ⟨_, _, rfl, rfl, rfl⟩)))
  · cases h
    exact .inl rfl
  · cases h
    exact .inr (.inr (.inr (.inr ⟨_, _, rfl⟩)))
  · cases h

/-- Every id that was entered is in the map, and the index has the names. -/
structure Unique (s : Registry A P) : Prop where
  entered : ∀ id ∈ s.entered, s.dir.has id = true
  ids : s.entered.Nodup
  index : ∀ name id, s.dir.nameIndex.get? name = some id ↔ (name, id) ∈ s.named
  names : (s.named.map Prod.fst).Nodup

/-- Nobody has inserted the id, or set the name, since `add` has looked for it. -/
def Undisturbed (s : Registry A P) (p : Place A P) : Action A P → Prop
  | .proceed =>
      match p with
      | .adding _ r => s.dir.has r.id = false
      | .indexing name _ => s.dir.nameIndex.get? name = none
      | _ => True
  | _ => True

instance (s : Registry A P) (p : Place A P) (a : Action A P) : Decidable (Undisturbed s p a) := by
  unfold Undisturbed
  split
  · split <;> infer_instance
  · infer_instance

theorem unique_initial : Unique (initial : Registry A P) where
  entered id h := by cases h
  ids := List.nodup_nil
  index name id := by simp [initial, ActorDirectory.empty]
  names := List.nodup_nil

theorem Unique.insert (h : Unique s) (hfree : s.dir.has r.id = false) : Unique (s.insert r) := by
  have hhas (id : UInt64) : (s.insert r).dir.has id = (decide (id = r.id) || s.dir.has id) := by
    rw [ActorDirectory.has, Registry.insert, Table.get?_emplace]
    split_ifs with hid
    · simp [hid]
    · simp [hid, ActorDirectory.has]
  refine ⟨fun id hid ↦ ?_, ?_, h.index, h.names⟩
  · rw [hhas]
    rcases List.mem_append.mp hid with hold | hnew
    · rw [h.entered id hold, Bool.or_true]
    · rw [List.mem_singleton.mp hnew, decide_eq_true rfl, Bool.true_or]
  · refine List.nodup_append.mpr ⟨h.ids, List.nodup_singleton _, ?_⟩
    rintro id hold _ hnew rfl
    have htrue := h.entered id hold
    rw [List.mem_singleton.mp hnew, hfree] at htrue
    cases htrue

theorem Unique.setName (h : Unique s) {name : String}
    (hnone : s.dir.nameIndex.get? name = none) : Unique (s.index name r) := by
  have hnot (id : UInt64) : (name, id) ∉ s.named := by
    rw [← h.index, hnone]
    nofun
  refine ⟨h.entered, h.ids, fun name' id ↦ ?_, ?_⟩
  · change (s.dir.nameIndex.insert name r.id).get? name' = some id ↔
      (name', id) ∈ s.named ++ [(name, r.id)]
    rw [Table.get?_insert, List.mem_append, List.mem_singleton, Prod.mk.injEq]
    split_ifs with hname
    · subst hname
      rw [Option.some.injEq, eq_comm]
      simp [hnot]
    · rw [h.index]
      simp [hname]
  · change ((s.named ++ [(name, r.id)]).map Prod.fst).Nodup
    rw [List.map_append, List.nodup_append]
    refine ⟨h.names, List.nodup_singleton _, ?_⟩
    rintro name' hold _ hnew rfl
    obtain ⟨⟨name'', id⟩, hmem, rfl⟩ := List.mem_map.mp hold
    obtain rfl : name'' = name := List.mem_singleton.mp hnew
    exact hnot id hmem

theorem Unique.erase (h : Unique s) (id : UInt64) (r : ActorRef A P) : Unique (s.erase id r) := by
  have hentered : ∀ x ∈ s.entered.filter (· ≠ id),
      ((s.dir.actors.erase id).get? x).isSome = true := by
    intro x hx
    obtain ⟨hmem, hne⟩ := List.mem_filter.mp hx
    rw [Table.get?_erase, if_neg (of_decide_eq_true hne)]
    exact h.entered x hmem
  have hids : (s.entered.filter (· ≠ id)).Nodup := h.ids.filter _
  unfold Registry.erase
  dsimp only
  split_ifs
  · refine ⟨hentered, hids, fun name x ↦ ?_, (List.filter_sublist.map Prod.fst).nodup h.names⟩
    change (s.dir.nameIndex.erase r.name).get? name = some x ↔
      (name, x) ∈ s.named.filter fun p ↦ p.1 ≠ r.name
    rw [Table.get?_erase, List.mem_filter, ← h.index]
    split_ifs with hname
    · simp [hname]
    · simp [hname]
  · exact ⟨hentered, hids, h.index, h.names⟩

theorem Unique.block (h : Unique s) (hok : s.Undisturbed p a)
    (hblock : s.block p a = some (s', p')) : Unique s' := by
  rcases block_cases hblock with rfl | ⟨e, rfl⟩ | ⟨name, r, rfl, rfl, rfl⟩ |
    ⟨name, r, rfl, rfl, rfl⟩ | ⟨id, r, rfl⟩
  · exact h
  · exact ⟨h.entered, h.ids, h.index, h.names⟩
  · exact h.insert hok
  · exact h.setName hok
  · exact h.erase id r

/-- A call that throws leaves both maps alone. -/
theorem dir_of_thrown (hblock : s.block p a = some (s', p')) (hthrown : s'.thrown ≠ s.thrown) :
    s'.dir = s.dir := by
  rcases block_cases hblock with rfl | ⟨e, rfl⟩ | ⟨name, r, -, -, rfl⟩ | ⟨name, r, -, -, rfl⟩ |
    ⟨id, r, rfl⟩
  · rfl
  · rfl
  · exact absurd rfl hthrown
  · exact absurd rfl hthrown
  · refine absurd ?_ hthrown
    unfold Registry.erase
    dsimp only
    split_ifs <;> rfl

/-! ## Runs -/

variable {ι : Type} [DecidableEq ι]

/-- No call under way. -/
def start : Threads ι (Registry A P) (Place A P) := ⟨initial, fun _ ↦ .idle⟩

end Registry

/-- In a run in which nobody inserts an id or sets a name between the block of `add`
that looks for it and the one that inserts or sets it: of the calls of `add` with one
id, one at most has gone past its checks since the id was deleted, and likewise of
the calls with one name; the index has each name with the id that it was added with;
and a call that throws changes neither map. -/
theorem registration_unique {ι : Type} [DecidableEq ι] (t : Threads ι (Registry A P) (Place A P))
    (h : Reaches (Threads.next Registry.block) (Threads.Each Registry.Undisturbed)
      Registry.start t) :
    t.shared.entered.Nodup ∧ (t.shared.named.map Prod.fst).Nodup ∧
    (∀ name id, t.shared.dir.nameIndex.get? name = some id ↔ (name, id) ∈ t.shared.named) ∧
    ∀ a t', t.next Registry.block a = some t' → t'.shared.thrown ≠ t.shared.thrown →
      t'.shared.dir = t.shared.dir := by
  have hunique : t.shared.Unique :=
    Threads.reaches_shared h Registry.unique_initial fun _ _ _ _ _ hs hok hblock ↦
      hs.block hok hblock
  refine ⟨hunique.ids, hunique.names, hunique.index, fun a t' hnext hthrown ↦ ?_⟩
  obtain ⟨s, p, hblock, rfl⟩ := Threads.next_eq_some hnext
  exact Registry.dir_of_thrown hblock hthrown

/-- Two threads add an actor under one name, one after the other. -/
theorem registration_unique_two : ∃ t : Threads Bool (Registry Unit Unit) (Place Unit Unit),
    t.shared.thrown = [.nameExists "a"] ∧ t.shared.named = [("a", 1)] ∧
      t.shared.dir.nameIndex.get? "a" = some 1 := by
  have hrun : ∃ t : Threads Bool (Registry Unit Unit) (Place Unit Unit),
      Reaches (Threads.next Registry.block) (Threads.Each Registry.Undisturbed) Registry.start t ∧
        (t.shared.thrown == [.nameExists "a"] && t.shared.named == [("a", 1)]) = true :=
    exists_reaches_checked [(true, .addNamed "a" ⟨some (), 1, none, .local, ""⟩), (true, .proceed),
      (true, .proceed), (true, .proceed), (false, .addNamed "a" ⟨some (), 2, none, .local, ""⟩)]
      (fun t a ↦ decide (Threads.Each Registry.Undisturbed t a))
      (fun _ _ hcheck ↦ of_decide_eq_true hcheck) (by decide)
  obtain ⟨t, hreach, hlast⟩ := hrun
  rw [Bool.and_eq_true, beq_iff_eq, beq_iff_eq] at hlast
  refine ⟨t, hlast.1, hlast.2, ?_⟩
  rw [(registration_unique t hreach).2.2.1, hlast.2]
  exact List.mem_cons_self

/-- Two calls of `add` with one id have both gone past the check of the id; and two
with one name past that of the name, so that the index has the name twice over. -/
theorem not_registration_unique :
    (¬ ∀ t : Threads Bool (Registry Unit Unit) (Place Unit Unit),
      Reaches (Threads.next Registry.block) (fun _ _ ↦ True) Registry.start t →
        t.shared.entered.Nodup) ∧
    ¬ ∀ t : Threads Bool (Registry Unit Unit) (Place Unit Unit),
      Reaches (Threads.next Registry.block) (fun _ _ ↦ True) Registry.start t →
        (t.shared.named.map Prod.fst).Nodup := by
  constructor
  · intro hall
    have hrun : ∃ t : Threads Bool (Registry Unit Unit) (Place Unit Unit),
        Reaches (Threads.next Registry.block) (fun _ _ ↦ True) Registry.start t ∧
          (t.shared.entered == [1, 1]) = true :=
      exists_reaches [(true, .add ⟨some (), 1, none, .local, ""⟩),
        (false, .add ⟨some (), 1, none, .local, ""⟩), (true, .proceed), (false, .proceed)]
        (fun _ _ _ ↦ trivial) (by decide)
    obtain ⟨t, hreach, hlast⟩ := hrun
    have hnodup := hall t hreach
    rw [beq_iff_eq.mp hlast] at hnodup
    exact absurd hnodup (by decide)
  · intro hall
    have hrun : ∃ t : Threads Bool (Registry Unit Unit) (Place Unit Unit),
        Reaches (Threads.next Registry.block) (fun _ _ ↦ True) Registry.start t ∧
          (t.shared.named == [("a", 1), ("a", 2)]) = true :=
      exists_reaches [(true, .addNamed "a" ⟨some (), 1, none, .local, ""⟩),
        (false, .addNamed "a" ⟨some (), 2, none, .local, ""⟩), (true, .proceed), (true, .proceed),
        (true, .proceed), (false, .proceed), (false, .proceed), (false, .proceed)]
        (fun _ _ _ ↦ trivial) (by decide)
    obtain ⟨t, hreach, hlast⟩ := hrun
    have hnodup := hall t hreach
    rw [beq_iff_eq.mp hlast] at hnodup
    exact absurd hnodup (by decide)

end ActorDirectory

end WiseKernel.Server
