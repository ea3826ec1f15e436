import Mathlib.Data.Set.Card
import WiseKernel.Idl.Program
import WiseKernel.Lib.Table

/-!
# The files of a program

The parser is called for a file on the stack unless the file is marked as
processed.  A file that is included enters the stack and the map at once, the
main file only the stack; the mark is written when the call has returned.
-/

namespace WiseKernel.Idl

open Lib

/-! ## The context -/

/-- `get_path_string` of an include. -/
def getPathString (path : List String) : String := "/".intercalate path

structure FileState where
  path : String
  processed : Bool
  deriving DecidableEq, Repr

/-- `idl_context`; `calls` records the calls of `parse_file`. -/
structure Context where
  pstack : List String := []
  fstack : List FileState := []
  states : Table String FileState := ∅
  calls : List String := []

/-- What `yyparse` makes of a file. -/
structure ParsedFile where
  rc : ℤ
  nodes : List Node
  deriving DecidableEq

/-- The files that can be opened. -/
abbrev Disk := String → Option ParsedFile

namespace Context

def pushProgram (ctx : Context) (path : String) : Context :=
  { ctx with pstack := path :: ctx.pstack }

def pushFile (ctx : Context) (path : String) : Context :=
  match ctx.states.get? path with
  | some _ => ctx
  | none =>
      { ctx with
        states := ctx.states.insert path ⟨path, false⟩
        fstack := ⟨path, false⟩ :: ctx.fstack }

/-- The paths of the `include` nodes. -/
def includes (nodes : List Node) : List String :=
  nodes.filterMap fun node ↦
    match node with
    | .includeNode path => some (getPathString path)
    | _ => none

variable (disk : Disk)

/-- `::parse_file`. -/
def parseFile (ctx : Context) (path : String) : ℤ × Context :=
  let ctx := { ctx with calls := ctx.calls ++ [path] }
  match disk path with
  | none => (-1, ctx)
  | some file =>
      let ctx := ctx.pushProgram path
      if file.rc = 0 then (file.rc, (includes file.nodes).foldl pushFile ctx)
      else (file.rc, ctx)

/-- The path has no state, or one that is not processed. -/
def unprocessed (ctx : Context) (path : String) : Bool :=
  match ctx.states.get? path with
  | none => true
  | some state => !state.processed

/-- `parse`, as far as the fuel goes. -/
def parse : ℕ → Context → Option (ℤ × Context)
  | 0, _ => none
  | fuel + 1, ctx =>
      match ctx.fstack with
      | [] => some (0, ctx)
      | f :: rest =>
          let ctx := { ctx with fstack := rest }
          if ctx.unprocessed f.path then
            let (rc, ctx) := ctx.parseFile disk f.path
            if rc ≠ 0 then some (-1, ctx)
            else
              parse fuel
                { ctx with states := ctx.states.insert f.path { f with processed := true } }
          else parse fuel ctx

/-- The context in which `start` enters the parsing phase. -/
def start (mainFile : String) : Context where
  fstack := [⟨mainFile, false⟩]

/-! ## Reachable files -/

/-- The call of `parse_file` returns zero. -/
def Succeeds (path : String) : Prop := ∃ file, disk path = some file ∧ file.rc = 0

def Includes (path path' : String) : Prop :=
  ∃ file, disk path = some file ∧ file.rc = 0 ∧ path' ∈ includes file.nodes

/-- The files to be visited from the main file. -/
def Reachable (mainFile : String) : String → Prop :=
  Relation.ReflTransGen (Includes disk) mainFile

/-! ## Pushing the includes of a file -/

/-- What a number of calls of `push_file` does. -/
structure Pushed (ctx : Context) (paths : List String) (ctx' : Context) : Prop where
  calls : ctx'.calls = ctx.calls
  kept : ∀ path state, ctx.states.get? path = some state → ctx'.states.get? path = some state
  new : ∀ path state, ctx'.states.get? path = some state →
    ctx.states.get? path = some state ∨
      state.processed = false ∧ path ∈ ctx'.fstack.map FileState.path
  known : ∀ path ∈ paths, ctx'.states.get? path ≠ none
  stack : ∃ files, ctx'.fstack = files ++ ctx.fstack ∧ ∀ f ∈ files, f.path ∈ paths

variable {ctx ctx' : Context}

theorem Pushed.refl (ctx : Context) : Pushed ctx [] ctx where
  calls := rfl
  kept _ _ h := h
  new _ _ h := .inl h
  known _ h := by cases h
  stack := ⟨[], rfl, by simp⟩

theorem Pushed.mem_fstack {paths : List String} (h : Pushed ctx paths ctx') {path : String}
    (hpath : path ∈ ctx.fstack.map FileState.path) : path ∈ ctx'.fstack.map FileState.path := by
  obtain ⟨files, hstack, -⟩ := h.stack
  rw [hstack, List.map_append]
  exact List.mem_append_right _ hpath

theorem Pushed.trans {paths paths' : List String} {ctx'' : Context} (h : Pushed ctx paths ctx')
    (h' : Pushed ctx' paths' ctx'') : Pushed ctx (paths ++ paths') ctx'' where
  calls := h'.calls.trans h.calls
  kept path state hstate := h'.kept path state (h.kept path state hstate)
  new path state hstate := by
    rcases h'.new path state hstate with hold | hnew
    · rcases h.new path state hold with hold | ⟨hfresh, hmem⟩
      · exact .inl hold
      · exact .inr ⟨hfresh, h'.mem_fstack hmem⟩
    · exact .inr hnew
  known path hpath := by
    rcases List.mem_append.mp hpath with hpath | hpath
    · cases hstate : ctx'.states.get? path with
      | none => exact absurd hstate (h.known path hpath)
      | some state =>
          rw [h'.kept path state hstate]
          exact Option.some_ne_none state
    · exact h'.known path hpath
  stack := by
    obtain ⟨files, hfiles, hmem⟩ := h.stack
    obtain ⟨files', hfiles', hmem'⟩ := h'.stack
    refine ⟨files' ++ files, ?_, ?_⟩
    · rw [hfiles', hfiles, List.append_assoc]
    · intro f hf
      rcases List.mem_append.mp hf with hf | hf
      · exact List.mem_append_right _ (hmem' f hf)
      · exact List.mem_append_left _ (hmem f hf)

theorem pushed_pushFile (ctx : Context) (path : String) :
    Pushed ctx [path] (ctx.pushFile path) := by
  rw [pushFile]
  split
  next state hstate =>
    constructor
    · rfl
    · exact fun _ _ h ↦ h
    · exact fun _ _ h ↦ .inl h
    · intro q hq
      rw [List.mem_singleton.mp hq, hstate]
      exact Option.some_ne_none state
    · exact ⟨[], rfl, by simp⟩
  next hnone =>
    constructor
    · rfl
    · intro q state hq
      rw [Table.get?_insert, if_neg]
      · exact hq
      · rintro rfl
        rw [hnone] at hq
        cases hq
    · intro q state hq
      rw [Table.get?_insert] at hq
      split_ifs at hq with heq
      · cases hq
        rw [heq]
        exact .inr ⟨rfl, List.mem_cons_self⟩
      · exact .inl hq
    · intro q hq
      rw [List.mem_singleton.mp hq, Table.get?_insert, if_pos rfl]
      exact Option.some_ne_none _
    · exact ⟨[⟨path, false⟩], rfl, by simp⟩

theorem pushed_foldl (ctx : Context) (paths : List String) :
    Pushed ctx paths (paths.foldl pushFile ctx) := by
  induction paths generalizing ctx with
  | nil => exact Pushed.refl ctx
  | cons path paths ih => exact (pushed_pushFile ctx path).trans (ih (ctx.pushFile path))

/-! ## The loop -/

/-- Between two iterations: the marked paths are those parsed, and the others
that are known wait on the stack. -/
structure Inv (disk : Disk) (mainFile : String) (ctx : Context) : Prop where
  nodup : ctx.calls.Nodup
  marked : ∀ path, path ∈ ctx.calls ↔
    ∃ state, ctx.states.get? path = some state ∧ state.processed = true
  waiting : ∀ path state, ctx.states.get? path = some state → state.processed = false →
    path ∈ ctx.fstack.map FileState.path
  begun : mainFile ∈ ctx.calls ∨ mainFile ∈ ctx.fstack.map FileState.path
  closed : ∀ path ∈ ctx.calls, Succeeds disk path ∧ ∀ path', Includes disk path path' →
    path' ∈ ctx.calls ∨ path' ∈ ctx.fstack.map FileState.path
  reachable : ∀ path, path ∈ ctx.calls ∨ path ∈ ctx.fstack.map FileState.path →
    Reachable disk mainFile path

variable {disk} {mainFile : String}

theorem inv_start : Inv disk mainFile (start mainFile) where
  nodup := List.nodup_nil
  marked path := by simp [start]
  waiting path state h := by cases h
  begun := .inr (by simp [start])
  closed path h := by cases h
  reachable path h := by
    have heq : path = mainFile := by simpa [start] using h
    rw [heq]
    exact .refl

/-- A path that is found processed is taken from the stack. -/
theorem Inv.skip {f : FileState} {rest : List FileState} (h : Inv disk mainFile ctx)
    (hstack : ctx.fstack = f :: rest) (hf : f.path ∈ ctx.calls) :
    Inv disk mainFile { ctx with fstack := rest } := by
  have hrest : ∀ path, path ∈ ctx.fstack.map FileState.path →
      path ∈ ctx.calls ∨ path ∈ rest.map FileState.path := by
    intro path hpath
    rw [hstack, List.map_cons] at hpath
    rcases List.mem_cons.mp hpath with rfl | hpath
    · exact .inl hf
    · exact .inr hpath
  constructor
  · exact h.nodup
  · exact h.marked
  · intro path state hstate hfresh
    rcases hrest path (h.waiting path state hstate hfresh) with hcalls | hpath
    · obtain ⟨state', hstate', hprocessed⟩ := (h.marked path).mp hcalls
      rw [hstate] at hstate'
      cases hstate'
      rw [hfresh] at hprocessed
      cases hprocessed
    · exact hpath
  · rcases h.begun with hmain | hmain
    · exact .inl hmain
    · exact hrest mainFile hmain
  · intro path hpath
    refine ⟨(h.closed path hpath).1, ?_⟩
    intro path' hincl
    rcases (h.closed path hpath).2 path' hincl with hpath' | hpath'
    · exact .inl hpath'
    · exact hrest path' hpath'
  · rintro path (hpath | hpath)
    · exact h.reachable path (.inl hpath)
    · apply h.reachable path
      rw [hstack]
      exact .inr (List.mem_cons_of_mem _ hpath)

theorem Inv.unprocessed_iff (h : Inv disk mainFile ctx) (path : String) :
    ctx.unprocessed path = true ↔ path ∉ ctx.calls := by
  rw [h.marked, unprocessed]
  cases ctx.states.get? path with
  | none => simp
  | some state => simp

/-- The file on top of the stack is read, and its includes are about to be pushed. -/
def opened (ctx : Context) (rest : List FileState) (path : String) : Context where
  pstack := path :: ctx.pstack
  fstack := rest
  states := ctx.states
  calls := ctx.calls ++ [path]

/-- A file is parsed: its includes are pushed, and then it is marked. -/
theorem Inv.parsed {f : FileState} {rest : List FileState} {file : ParsedFile} {ctx₁ : Context}
    (h : Inv disk mainFile ctx) (hstack : ctx.fstack = f :: rest) (hf : f.path ∉ ctx.calls)
    (hfile : disk f.path = some file) (hrc : file.rc = 0)
    (hpush : Pushed (ctx.opened rest f.path) (includes file.nodes) ctx₁) :
    Inv disk mainFile
      { ctx₁ with states := ctx₁.states.insert f.path { f with processed := true } } := by
  have hcalls : ctx₁.calls = ctx.calls ++ [f.path] := hpush.calls
  have hmem : ∀ path, path ∈ ctx₁.calls ↔ path ∈ ctx.calls ∨ path = f.path := by
    intro path
    rw [hcalls, List.mem_append, List.mem_singleton]
  have hbefore : ∀ path, path ∈ ctx.fstack.map FileState.path →
      path ∈ ctx₁.calls ∨ path ∈ ctx₁.fstack.map FileState.path := by
    intro path hpath
    rw [hstack, List.map_cons] at hpath
    rcases List.mem_cons.mp hpath with rfl | hpath
    · exact .inl ((hmem _).mpr (.inr rfl))
    · exact .inr (hpush.mem_fstack hpath)
  have hincl : ∀ path, path ∈ includes file.nodes →
      path ∈ ctx₁.calls ∨ path ∈ ctx₁.fstack.map FileState.path := by
    intro path hpath
    cases hstate : ctx₁.states.get? path with
    | none => exact absurd hstate (hpush.known path hpath)
    | some state =>
        rcases hpush.new path state hstate with hold | hnew
        · cases hprocessed : state.processed with
          | true =>
              exact .inl ((hmem path).mpr (.inl ((h.marked path).mpr ⟨state, hold, hprocessed⟩)))
          | false => exact hbefore path (h.waiting path state hold hprocessed)
        · exact .inr hnew.2
  constructor
  · rw [hcalls, ← List.concat_eq_append]
    exact List.Nodup.concat hf h.nodup
  · intro path
    rw [hmem]
    dsimp only
    rw [Table.get?_insert]
    split_ifs with heq
    · exact iff_of_true (.inr heq) ⟨_, rfl, rfl⟩
    · rw [h.marked, or_iff_left heq]
      constructor
      · rintro ⟨state, hstate, hprocessed⟩
        exact ⟨state, hpush.kept path state hstate, hprocessed⟩
      · rintro ⟨state, hstate, hprocessed⟩
        rcases hpush.new path state hstate with hold | ⟨hfresh, -⟩
        · exact ⟨state, hold, hprocessed⟩
        · rw [hprocessed] at hfresh
          cases hfresh
  · intro path state hstate hfresh
    rw [Table.get?_insert] at hstate
    split_ifs at hstate with heq
    · cases hstate
      cases hfresh
    · rcases hpush.new path state hstate with hold | hnew
      · have hwaiting := h.waiting path state hold hfresh
        rw [hstack, List.map_cons] at hwaiting
        rcases List.mem_cons.mp hwaiting with hpath | hpath
        · exact absurd hpath heq
        · exact hpush.mem_fstack hpath
      · exact hnew.2
  · rcases h.begun with hmain | hmain
    · exact .inl ((hmem mainFile).mpr (.inl hmain))
    · exact hbefore mainFile hmain
  · intro path hpath
    rcases (hmem path).mp hpath with hpath | rfl
    · refine ⟨(h.closed path hpath).1, ?_⟩
      intro path' hincludes
      rcases (h.closed path hpath).2 path' hincludes with hpath' | hpath'
      · exact .inl ((hmem path').mpr (.inl hpath'))
      · exact hbefore path' hpath'
    · refine ⟨⟨file, hfile, hrc⟩, ?_⟩
      rintro path' ⟨file', hfile', -, hpath'⟩
      rw [hfile] at hfile'
      cases hfile'
      exact hincl path' hpath'
  · have hself : Reachable disk mainFile f.path := by
      apply h.reachable
      rw [hstack]
      exact .inr List.mem_cons_self
    rintro path (hpath | hpath)
    · rcases (hmem path).mp hpath with hpath | rfl
      · exact h.reachable path (.inl hpath)
      · exact hself
    · obtain ⟨files, hfiles, hnew⟩ := hpush.stack
      dsimp only at hpath
      rw [hfiles, List.map_append] at hpath
      rcases List.mem_append.mp hpath with hpath | hpath
      · obtain ⟨f', hf', rfl⟩ := List.mem_map.mp hpath
        exact hself.tail ⟨file, hfile, hrc, hnew f' hf'⟩
      · apply h.reachable
        rw [hstack]
        exact .inr (List.mem_cons_of_mem _ hpath)

/-! ## The whole run -/

/-- `parse` has returned `rc`. -/
structure Visits (disk : Disk) (mainFile : String) (rc : ℤ) (ctx : Context) : Prop where
  once : ctx.calls.Nodup
  only : ∀ path ∈ ctx.calls, Reachable disk mainFile path
  success : (∀ path ∈ ctx.calls, Succeeds disk path) →
    rc = 0 ∧ ∀ path, Reachable disk mainFile path → path ∈ ctx.calls
  failure : (∃ path ∈ ctx.calls, ¬ Succeeds disk path) → rc = -1

/-- With an empty stack all that is reachable is parsed. -/
theorem Inv.visits (h : Inv disk mainFile ctx) (hstack : ctx.fstack = []) :
    Visits disk mainFile 0 ctx := by
  have hdone : ∀ path, path ∈ ctx.calls ∨ path ∈ ctx.fstack.map FileState.path →
      path ∈ ctx.calls := by
    intro path hpath
    rw [hstack] at hpath
    exact hpath.resolve_right List.not_mem_nil
  constructor
  · exact h.nodup
  · exact fun path hpath ↦ h.reachable path (.inl hpath)
  · intro _
    refine ⟨rfl, ?_⟩
    intro path hpath
    induction hpath with
    | refl => exact hdone mainFile h.begun
    | tail _ hincl ih => exact hdone _ ((h.closed _ ih).2 _ hincl)
  · rintro ⟨path, hpath, hfails⟩
    exact absurd (h.closed path hpath).1 hfails

theorem Inv.visits_of_fails (h : Inv disk mainFile ctx) {f : FileState} {rest : List FileState}
    (hstack : ctx.fstack = f :: rest) (hf : f.path ∉ ctx.calls) (hfails : ¬ Succeeds disk f.path)
    {ctx' : Context} (hcalls : ctx'.calls = ctx.calls ++ [f.path]) :
    Visits disk mainFile (-1) ctx' := by
  have hlast : f.path ∈ ctx'.calls := by
    rw [hcalls]
    exact List.mem_append_right _ List.mem_cons_self
  constructor
  · rw [hcalls, ← List.concat_eq_append]
    exact List.Nodup.concat hf h.nodup
  · intro path hpath
    apply h.reachable
    rw [hcalls] at hpath
    rcases List.mem_append.mp hpath with hpath | hpath
    · exact .inl hpath
    · rw [List.mem_singleton.mp hpath, hstack]
      exact .inr List.mem_cons_self
  · intro hall
    exact absurd (hall f.path hlast) hfails
  · exact fun _ ↦ rfl

/-- The calls so far are as many different reachable files. -/
theorem Inv.length_calls_le (h : Inv disk mainFile ctx)
    (hfinite : {path | Reachable disk mainFile path}.Finite) :
    ctx.calls.length ≤ hfinite.toFinset.card := by
  rw [← List.toFinset_card_of_nodup h.nodup]
  apply Finset.card_le_card
  intro path hpath
  rw [Set.Finite.mem_toFinset]
  exact h.reachable path (.inl (List.mem_toFinset.mp hpath))

theorem Inv.parse_skip (h : Inv disk mainFile ctx) {f : FileState} {rest : List FileState}
    (hstack : ctx.fstack = f :: rest) (hf : f.path ∈ ctx.calls) (fuel : ℕ) :
    parse disk (fuel + 1) ctx = parse disk fuel { ctx with fstack := rest } := by
  have hunprocessed : ({ ctx with fstack := rest } : Context).unprocessed f.path = false := by
    rw [← Bool.not_eq_true]
    exact fun hnot ↦ (h.unprocessed_iff f.path).mp hnot hf
  rw [parse, hstack]
  dsimp only
  rw [hunprocessed]
  rfl

/-- Otherwise the return code of `parse_file` decides. -/
theorem Inv.parse_call (h : Inv disk mainFile ctx) {f : FileState} {rest : List FileState}
    (hstack : ctx.fstack = f :: rest) (hf : f.path ∉ ctx.calls) {rc : ℤ} {ctx₁ : Context}
    (hcall : parseFile disk { ctx with fstack := rest } f.path = (rc, ctx₁)) (fuel : ℕ) :
    parse disk (fuel + 1) ctx =
      if rc ≠ 0 then some (-1, ctx₁)
      else parse disk fuel
        { ctx₁ with states := ctx₁.states.insert f.path { f with processed := true } } := by
  have hunprocessed : ({ ctx with fstack := rest } : Context).unprocessed f.path = true :=
    (h.unprocessed_iff f.path).mpr hf
  rw [parse, hstack]
  dsimp only
  rw [hunprocessed, if_pos rfl, hcall]

theorem parseFile_of_rc_eq {rest : List FileState} {path : String} {file : ParsedFile}
    (hfile : disk path = some file) (hrc : file.rc = 0) :
    parseFile disk { ctx with fstack := rest } path =
      (0, (includes file.nodes).foldl pushFile (ctx.opened rest path)) := by
  rw [parseFile, hfile]
  dsimp only
  rw [if_pos hrc, hrc]
  rfl

theorem parseFile_of_fails {rest : List FileState} {path : String}
    (hfails : ¬ Succeeds disk path) : ∃ rc ctx₁,
      parseFile disk { ctx with fstack := rest } path = (rc, ctx₁) ∧ rc ≠ 0 ∧
        ctx₁.calls = ctx.calls ++ [path] := by
  rw [parseFile]
  cases hfile : disk path with
  | none => exact ⟨_, _, rfl, by decide, rfl⟩
  | some file =>
      have hrc : file.rc ≠ 0 := fun hrc ↦ hfails ⟨file, hfile, hrc⟩
      dsimp only
      rw [if_neg hrc]
      exact ⟨_, _, rfl, hrc, rfl⟩

/-- An iteration parses a new file or makes the stack shorter. -/
theorem Inv.exists_parse (hfinite : {path | Reachable disk mainFile path}.Finite) {left depth : ℕ}
    (h : Inv disk mainFile ctx) (hleft : hfinite.toFinset.card - ctx.calls.length = left)
    (hdepth : ctx.fstack.length = depth) :
    ∃ fuel rc ctx', (∀ more, parse disk (fuel + more) ctx = some (rc, ctx')) ∧
      Visits disk mainFile rc ctx' := by
  induction left using Nat.strong_induction_on generalizing ctx depth with
  | _ left ihleft =>
  induction depth generalizing ctx with
  | zero =>
      have hstack := List.length_eq_zero_iff.mp hdepth
      refine ⟨1, 0, ctx, ?_, h.visits hstack⟩
      intro more
      rw [Nat.add_comm, parse, hstack]
  | succ depth ihdepth =>
      obtain ⟨f, rest, hstack⟩ := List.exists_cons_of_length_eq_add_one hdepth
      by_cases hf : f.path ∈ ctx.calls
      · have hrest : rest.length = depth := by
          rw [hstack] at hdepth
          exact Nat.succ.inj hdepth
        obtain ⟨fuel, rc, ctx', hrun, hvisits⟩ := ihdepth (h.skip hstack hf) hleft hrest
        refine ⟨fuel + 1, rc, ctx', ?_, hvisits⟩
        intro more
        rw [Nat.add_right_comm, h.parse_skip hstack hf]
        exact hrun more
      · by_cases hok : Succeeds disk f.path
        · obtain ⟨file, hfile, hrc⟩ := hok
          have hpush := pushed_foldl (ctx.opened rest f.path) (includes file.nodes)
          have hinv := h.parsed hstack hf hfile hrc hpush
          have hone : ctx.calls.length + 1 ≤ hfinite.toFinset.card := by
            have hlength := hinv.length_calls_le hfinite
            dsimp only at hlength
            rw [hpush.calls] at hlength
            rwa [opened, List.length_append] at hlength
          have hless : hfinite.toFinset.card - (ctx.opened rest f.path).calls.length < left := by
            rw [opened, List.length_append, List.length_singleton]
            omega
          obtain ⟨fuel, rc, ctx', hrun, hvisits⟩ :=
            ihleft _ hless hinv (by rw [← hpush.calls]) rfl
          refine ⟨fuel + 1, rc, ctx', ?_, hvisits⟩
          intro more
          rw [Nat.add_right_comm, h.parse_call hstack hf (parseFile_of_rc_eq hfile hrc),
            if_neg (not_not.mpr rfl)]
          exact hrun more
        · obtain ⟨rc, ctx', hcall, hrc, hcalls⟩ := parseFile_of_fails hok
          refine ⟨1, -1, ctx', ?_, h.visits_of_fails hstack hf hok hcalls⟩
          intro more
          rw [Nat.add_comm, h.parse_call hstack hf hcall, if_pos hrc]

/-- Every file that is reachable is parsed once, and no other; the first failure
ends the parsing. -/
theorem exists_parse_start (disk : Disk) (mainFile : String)
    (hfinite : {path | Reachable disk mainFile path}.Finite) :
    ∃ fuel rc ctx, (∀ more, parse disk (fuel + more) (start mainFile) = some (rc, ctx)) ∧
      Visits disk mainFile rc ctx :=
  inv_start.exists_parse hfinite rfl rfl

/-- Two files that include themselves and each other. -/
def twoFiles : Disk := fun path ↦
  if path = "main.bits" ∨ path = "a.bits" then
    some ⟨0, [.includeNode ["main.bits"], .includeNode ["a.bits"]]⟩
  else none

theorem parse_twoFiles :
    ∃ fuel rc ctx, (∀ more, parse twoFiles (fuel + more) (start "main.bits") = some (rc, ctx)) ∧
      Visits twoFiles "main.bits" rc ctx := by
  apply exists_parse_start
  apply Set.Finite.subset (Set.toFinite {"main.bits", "a.bits"})
  intro path hpath
  induction hpath with
  | refl => exact .inl rfl
  | tail _ hincl _ =>
      obtain ⟨file, hfile, -, hmem⟩ := hincl
      rw [twoFiles] at hfile
      split at hfile
      · cases hfile
        simpa [includes, getPathString] using hmem
      · cases hfile

end Context

end WiseKernel.Idl
