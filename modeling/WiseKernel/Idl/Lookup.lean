import WiseKernel.Idl.Names
import WiseKernel.Idl.TxQuery

/-!
# Looking names up

A full name is put together where a symbol is declared, in `is_enum` and in the
second lookup for a struct.  The name of a namespace ends in a separator, and
the second lookup writes another one behind it.
-/

namespace WiseKernel.Idl

open Cplus

/-! ## Declarations -/

/-- The parser adds `sym` at one of the nodes. -/
def Program.Declares (program : Program) (sym : Symbol) : Prop :=
  ∃ seen node rest, program.nodes = seen ++ node :: rest ∧ symbolOf seen node = some sym

def Symbol.isEnum (sym : Symbol) : Bool :=
  match sym.node with
  | .enumNode _ => true
  | _ => false

def Symbol.isStruct (sym : Symbol) : Bool :=
  match sym.node with
  | .structNode _ => true
  | _ => false

namespace SymbolTable

theorem fullName_of_lookup {table : SymbolTable} {name : String} {sym : Symbol}
    (h : table.lookup name = some sym) : sym.fullName = name := by
  simpa using List.find?_some h

end SymbolTable

theorem declares_of_mem_addSymbols {table : SymbolTable} {seen nodes : List Node} {sym : Symbol}
    (h : sym ∈ addSymbols table seen nodes) :
    sym ∈ table ∨ Program.Declares ⟨seen ++ nodes⟩ sym := by
  induction nodes generalizing table seen with
  | nil => exact .inl h
  | cons node nodes ih =>
      have hlist : seen ++ [node] ++ nodes = seen ++ node :: nodes := by simp
      rcases ih h with hmem | hdecl
      · cases hnode : symbolOf seen node with
        | none =>
            rw [hnode] at hmem
            exact .inl hmem
        | some new =>
            rw [hnode] at hmem
            rcases SymbolTable.mem_add hmem with hmem | rfl
            · exact .inl hmem
            · exact .inr ⟨seen, node, nodes, rfl, hnode⟩
      · rw [hlist] at hdecl
        exact .inr hdecl

/-- The table has no symbols of its own. -/
theorem exists_declares {programs : List Program} {sym : Symbol} (h : sym ∈ symbols programs) :
    ∃ program ∈ programs, program.Declares sym := by
  have hfold : ∀ table : SymbolTable,
      sym ∈ programs.foldl (fun table program ↦ addSymbols table [] program.nodes) table →
        sym ∈ table ∨ ∃ program ∈ programs, program.Declares sym := by
    clear h
    induction programs with
    | nil => exact fun _ h ↦ .inl h
    | cons program programs ih =>
        intro table h
        rcases ih _ h with h | ⟨other, hmem, hdecl⟩
        · rcases declares_of_mem_addSymbols h with h | h
          · exact .inl h
          · exact .inr ⟨program, List.mem_cons_self, h⟩
        · exact .inr ⟨other, List.mem_cons_of_mem program hmem, hdecl⟩
  rcases hfold [] h with h | h
  · cases h
  · exact h

/-! ## Separators -/

theorem getFullname_eq (nodes : List Node) (name : String) :
    getFullname nodes name = namespaceString "::" ((getNamespace nodes).getD []) ++ name := by
  rw [getFullname]
  cases getNamespace nodes with
  | none => exact (String.empty_append).symm
  | some ns => rfl

theorem Program.Declares.fullName_eq {program : Program} {sym : Symbol}
    (h : program.Declares sym) :
    ∃ (ns : List Identifier) (name : Identifier),
      sym.fullName = namespaceString "::" ns ++ name.text := by
  obtain ⟨seen, node, rest, -, hnode⟩ := h
  refine ⟨(getNamespace seen).getD [], ?_⟩
  cases node with
  | enumNode name =>
      cases hnode
      exact ⟨name, getFullname_eq seen name.text⟩
  | structNode s =>
      cases hnode
      exact ⟨s.name, getFullname_eq seen s.name.text⟩
  | messageNode m =>
      cases hnode
      exact ⟨m.name, getFullname_eq seen m.name.text⟩
  | includeNode _ | namespaceNode _ | txNode _ => cases hnode

/-- What stands before the last separator, the last character first. -/
def beforeName (text : String) : List Char :=
  (text.toList.reverse.dropWhile (· ≠ ':')).drop 2

theorem beforeName_append (x : String) (name : Identifier) :
    beforeName (x ++ "::" ++ name.text) = x.toList.reverse := by
  have hlist : (x ++ "::" ++ name.text).toList.reverse =
      name.text.toList.reverse ++ ':' :: ':' :: x.toList.reverse := by
    simp
  have hname : ∀ c ∈ name.text.toList.reverse, decide (c ≠ ':') = true := by
    intro c hc
    rw [decide_eq_true_eq]
    rintro rfl
    exact name.ne_of_mem (by decide) (by decide) (List.mem_reverse.mp hc)
  rw [beforeName, hlist, List.dropWhile_append_of_pos hname]
  rfl

theorem namespaceString_concat (separator : String) (ns : List Identifier) (n : Identifier) :
    namespaceString separator (ns ++ [n]) =
      namespaceString separator ns ++ n.text ++ separator := by
  induction ns with
  | nil => simp [namespaceString]
  | cons m ns ih =>
      rw [List.cons_append, namespaceString, ih, namespaceString]
      simp only [String.append_assoc]

theorem Identifier.head?_reverse_ne (name : Identifier) (cs : List Char) :
    (name.text.toList.reverse ++ cs).head? ≠ some ':' := by
  cases hrev : name.text.toList.reverse with
  | nil =>
      have hvalid := name.valid
      rw [isIdentifier, List.reverse_eq_nil_iff.mp hrev] at hvalid
      cases hvalid
  | cons c rest =>
      intro h
      cases h
      have hmem : ':' ∈ name.text.toList.reverse := by
        rw [hrev]
        exact List.mem_cons_self
      exact name.ne_of_mem (by decide) (by decide) (List.mem_reverse.mp hmem)

/-- Between two separators of a full name stands a word. -/
theorem head?_beforeName (ns : List Identifier) (name : Identifier) :
    (beforeName (namespaceString "::" ns ++ name.text)).head? ≠ some ':' := by
  rcases ns.eq_nil_or_concat' with rfl | ⟨init, last, rfl⟩
  · rw [namespaceString, String.empty_append, beforeName]
    have hnone : name.text.toList.reverse.dropWhile (· ≠ ':') = [] := by
      rw [List.dropWhile_eq_nil_iff]
      intro c hc
      rw [decide_eq_true_eq]
      rintro rfl
      exact name.ne_of_mem (by decide) (by decide) (List.mem_reverse.mp hc)
    rw [hnone]
    simp
  · rw [namespaceString_concat, beforeName_append, String.toList_append, List.reverse_append]
    apply last.head?_reverse_ne

/-- The second lookup never finds anything, unless the namespace has no name. -/
theorem lookupIn_eq_none (programs : List Program) {ns : List Identifier} (hns : ns ≠ [])
    (name : Identifier) :
    (symbols programs).lookupIn (namespaceString "::" ns) name.text = none := by
  cases hlookup : (symbols programs).lookupIn (namespaceString "::" ns) name.text with
  | none => rfl
  | some sym =>
      exfalso
      rw [SymbolTable.lookupIn] at hlookup
      obtain ⟨program, -, hdecl⟩ := exists_declares (List.mem_of_find?_eq_some hlookup)
      obtain ⟨ns', name', hname⟩ := hdecl.fullName_eq
      apply head?_beforeName ns' name'
      rw [← hname, SymbolTable.fullName_of_lookup hlookup, beforeName_append]
      rcases ns.eq_nil_or_concat' with rfl | ⟨init, last, rfl⟩
      · exact absurd rfl hns
      · rw [namespaceString_concat]
        simp

/-! ## Two spellings of a name -/

/-- The simple name and the full one, in the namespace of the program. -/
def spellings (program : Program) (name : Identifier) : List FullType :=
  [⟨[], name⟩, ⟨(getNamespace program.nodes).getD [], name⟩]

/-- The struct whose members `generate_tx_execute_bind_full` binds. -/
def boundStruct (table : SymbolTable) (program : Program) (type : FullType) : Option Symbol :=
  match findStruct table program type with
  | .ok sym => if sym.isStruct then some sym else none
  | .error _ => none

/-- Every lookup of the generators finds `sym` under either spelling. -/
structure Resolves (table : SymbolTable) (program : Program) (name : Identifier) (sym : Symbol) :
    Prop where
  isEnum : ∀ type ∈ spellings program name, ∀ variableName,
    isEnum table program ⟨.basic (.full type), variableName⟩ = sym.isEnum
  boundStruct : ∀ type ∈ spellings program name, ∀ found,
    boundStruct table program type = some found ↔ found = sym ∧ sym.isStruct = true

theorem isEnumSymbol_of_lookup {table : SymbolTable} {name : String} {sym : Symbol}
    (h : table.lookup name = some sym) : isEnumSymbol table name = sym.isEnum := by
  rw [isEnumSymbol, h]
  obtain ⟨fullName, node⟩ := sym
  cases node <;> rfl

theorem boundStruct_eq_some_iff {table : SymbolTable} {program : Program} {type : FullType}
    {sym : Symbol} (h : findStruct table program type = .ok sym) (found : Symbol) :
    boundStruct table program type = some found ↔ found = sym ∧ sym.isStruct = true := by
  rw [boundStruct, h]
  dsimp only
  split
  next hstruct =>
    rw [Option.some_inj, hstruct, eq_comm]
    simp
  next hstruct => simp [hstruct]

theorem findStruct_of_lookup {table : SymbolTable} {type : FullType} {sym : Symbol}
    (h : table.lookup type.getName = some sym) (program : Program) :
    findStruct table program type = .ok sym := by
  rw [findStruct, h]

/-- A simple name inside a namespace is looked up among the names outside. -/
theorem boundStruct_simple {programs : List Program} {program : Program}
    (hns : (getNamespace program.nodes).getD [] ≠ []) {name : Identifier} {found : Symbol}
    (h : boundStruct (symbols programs) program ⟨[], name⟩ = some found) :
    (symbols programs).lookup name.text = some found ∧ found.isStruct = true := by
  have hname : (FullType.mk [] name).getName = name.text := String.empty_append
  cases hlookup : (symbols programs).lookup name.text with
  | some sym =>
      have hfind := findStruct_of_lookup (hname ▸ hlookup) program
      obtain ⟨rfl, hstruct⟩ := (boundStruct_eq_some_iff hfind found).mp h
      exact ⟨rfl, hstruct⟩
  | none =>
      rw [boundStruct, findStruct, hname, hlookup] at h
      cases hspace : getNamespace program.nodes with
      | none =>
          rw [hspace] at hns
          exact absurd rfl hns
      | some ns =>
          have hne : ns ≠ [] := by simpa [hspace] using hns
          have hnone := lookupIn_eq_none programs hne name
          rw [hspace] at h
          dsimp only at h
          rw [hnone] at h
          cases h

theorem ne_append_of_ne_nil {ns : List Identifier} (hns : ns ≠ []) (name : String) :
    name ≠ namespaceString "::" ns ++ name := by
  intro h
  have hlength := congrArg String.length h
  cases ns with
  | nil => exact hns rfl
  | cons n ns =>
      simp only [namespaceString, String.length_append] at hlength
      have hsep : "::".length = 2 := rfl
      omega

/-- A symbol inside a namespace is not recorded under its simple name. -/
theorem lookup_simple_ne {table : SymbolTable} {program : Program}
    (hns : (getNamespace program.nodes).getD [] ≠ []) {name : String} {sym : Symbol}
    (hfull : table.lookup (getFullname program.nodes name) = some sym) :
    table.lookup name ≠ some sym := by
  intro hsimple
  have hsame : name = getFullname program.nodes name :=
    (SymbolTable.fullName_of_lookup hsimple).symm.trans (SymbolTable.fullName_of_lookup hfull)
  rw [getFullname_eq] at hsame
  exact ne_append_of_ne_nil hns name hsame

/-- Outside of namespaces all is well.  In one, only an enumeration is found
under its simple name, and only while no struct outside has that name. -/
theorem resolves_iff {programs : List Program} {program : Program} {name : Identifier}
    {sym : Symbol}
    (h : (symbols programs).lookup (getFullname program.nodes name.text) = some sym)
    (hkind : sym.isEnum = true ∨ sym.isStruct = true) :
    Resolves (symbols programs) program name sym ↔
      (getNamespace program.nodes).getD [] = [] ∨
        (sym.isEnum = true ∧
          ∀ other, (symbols programs).lookup name.text = some other → other.isStruct = false) := by
  have hsimple : (FullType.mk [] name).getName = name.text := String.empty_append
  have hfull : (FullType.mk ((getNamespace program.nodes).getD []) name).getName =
      getFullname program.nodes name.text := (getFullname_eq program.nodes name.text).symm
  have hfind := findStruct_of_lookup (hfull ▸ h) program
  constructor
  · intro hresolves
    by_cases hns : (getNamespace program.nodes).getD [] = []
    · exact .inl hns
    · right
      rcases hkind with henum | hstruct
      · refine ⟨henum, ?_⟩
        intro other hother
        by_contra hstruct
        rw [Bool.not_eq_false] at hstruct
        have hbound := (boundStruct_eq_some_iff
          (findStruct_of_lookup (hsimple ▸ hother) program) other).mpr ⟨rfl, hstruct⟩
        have heq := ((hresolves.boundStruct _ List.mem_cons_self other).mp hbound).1
        rw [heq] at hother
        exact lookup_simple_ne hns h hother
      · exfalso
        have hbound := (hresolves.boundStruct _ List.mem_cons_self sym).mpr ⟨rfl, hstruct⟩
        exact lookup_simple_ne hns h (boundStruct_simple hns hbound).1
  · intro hcond
    by_cases hns : (getNamespace program.nodes).getD [] = []
    · -- both spellings are the simple name
      have htext : ∀ text : String, getFullname program.nodes text = text := by
        intro text
        rw [getFullname_eq, hns]
        exact String.empty_append
      have hspell : ∀ type ∈ spellings program name, type.getName = name.text := by
        intro type htype
        rw [spellings, hns] at htype
        simp only [List.mem_cons, List.not_mem_nil, or_false, or_self] at htype
        rw [htype]
        exact hsimple
      rw [htext] at h
      constructor
      · intro type htype variableName
        have hname : (FieldType.basic (.full type)).getName = name.text := hspell type htype
        rw [isEnum, hname, htext, isEnumSymbol_of_lookup h, Bool.or_self]
      · intro type htype found
        apply boundStruct_eq_some_iff
        apply findStruct_of_lookup
        rw [hspell type htype]
        exact h
    · obtain ⟨henum, hother⟩ := hcond.resolve_left hns
      have hstruct : sym.isStruct = false := by
        rw [Symbol.isEnum] at henum
        rw [Symbol.isStruct]
        split at henum
        next hnode => rw [hnode]
        · cases henum
      have hsym := isEnumSymbol_of_lookup h
      rw [henum] at hsym
      constructor
      · intro type htype variableName
        rw [spellings, List.mem_cons, List.mem_singleton] at htype
        rw [henum, isEnum]
        rcases htype with rfl | rfl
        · have hname : (FieldType.basic (.full ⟨[], name⟩)).getName = name.text := hsimple
          rw [hname, hsym, Bool.or_true]
        · have hname : (FieldType.basic
              (.full ⟨(getNamespace program.nodes).getD [], name⟩)).getName =
                getFullname program.nodes name.text := hfull
          rw [hname, hsym, Bool.true_or]
      · intro type htype found
        rw [spellings, List.mem_cons, List.mem_singleton] at htype
        rcases htype with rfl | rfl
        · constructor
          · intro hbound
            obtain ⟨hfound, htrue⟩ := boundStruct_simple hns hbound
            rw [hother found hfound] at htrue
            cases htrue
          · rintro ⟨-, htrue⟩
            rw [hstruct] at htrue
            cases htrue
        · exact boundStruct_eq_some_iff hfind found

/-- `namespace game::core enum color \x7b \x7d struct item \x7b \x7d`. -/
def core : Program where
  nodes := [.namespaceNode [⟨"game", by decide⟩, ⟨"core", by decide⟩],
    .enumNode ⟨"color", by decide⟩, .structNode ⟨⟨"item", by decide⟩, []⟩]

theorem resolves_color :
    Resolves (symbols [core]) core ⟨"color", by decide⟩
      ⟨"game::core::color", .enumNode ⟨"color", by decide⟩⟩ := by
  apply (resolves_iff (by decide +kernel) (.inl rfl)).mpr
  refine .inr ⟨rfl, ?_⟩
  intro other hother
  have hnone : (symbols [core]).lookup "color" = none := by decide +kernel
  rw [hnone] at hother
  cases hother

/-- The struct is found as `game::core::item` and not as `item`. -/
theorem not_resolves :
    (symbols [core]).lookup (getFullname core.nodes "item") =
        some ⟨"game::core::item", .structNode ⟨⟨"item", by decide⟩, []⟩⟩ ∧
      ¬ Resolves (symbols [core]) core ⟨"item", by decide⟩
        ⟨"game::core::item", .structNode ⟨⟨"item", by decide⟩, []⟩⟩ := by
  refine ⟨by decide +kernel, ?_⟩
  intro h
  have hbound := (h.boundStruct ⟨[], ⟨"item", by decide⟩⟩ List.mem_cons_self _).mpr ⟨rfl, rfl⟩
  have hnone : boundStruct (symbols [core]) core ⟨[], ⟨"item", by decide⟩⟩ = none := by
    decide +kernel
  rw [hnone] at hbound
  cases hbound

end WiseKernel.Idl
