import Mathlib.Data.List.TakeWhile
import WiseKernel.Idl.Program

/-!
# Names of enumerations

`is_enum` compares texts.  The last part of a full name, behind the separators,
is an identifier, so the words for the simple types and the names made up for
vectors never name an enumeration.
-/

namespace WiseKernel.Idl

/-! ## The last part of a name -/

/-- The characters behind the last colon, the last one first. -/
def lastPart (text : String) : List Char := text.toList.reverse.takeWhile (· ≠ ':')

theorem takeWhile_append_colon (l m : List Char) :
    (l ++ ':' :: m).takeWhile (· ≠ ':') = l.takeWhile (· ≠ ':') := by
  induction l with
  | nil => rfl
  | cons c l ih =>
      by_cases hc : c = ':'
      · simp [hc]
      · simp only [List.cons_append, List.takeWhile_cons, ih]

theorem lastPart_append (x y : String) : lastPart (x ++ "::" ++ y) = lastPart y := by
  have hlist : (x ++ "::" ++ y).toList.reverse =
      y.toList.reverse ++ ':' :: ':' :: x.toList.reverse := by
    simp
  rw [lastPart, hlist, takeWhile_append_colon]
  rfl

theorem lastPart_namespaceString (ns : List Identifier) (name : String) :
    lastPart (namespaceString "::" ns ++ name) = lastPart name := by
  induction ns with
  | nil => simp [namespaceString]
  | cons n ns ih =>
      rw [namespaceString, String.append_assoc, lastPart_append, ih]

theorem lastPart_getFullname (nodes : List Node) (name : String) :
    lastPart (getFullname nodes name) = lastPart name := by
  rw [getFullname]
  cases getNamespace nodes with
  | none => rfl
  | some ns => exact lastPart_namespaceString ns name

/-! ## Identifiers -/

theorem isTail_chars {cs : List Char} (h : isTail cs = true) :
    ∀ c ∈ cs, isWord c = true ∨ c = '.' := by
  induction cs using isTail.induct with
  | case1 => simp
  | case2 c cs ih =>
      simp only [isTail, Bool.and_eq_true] at h
      intro x hx
      rcases List.mem_cons.mp hx with rfl | hx
      · exact .inr rfl
      · rcases List.mem_cons.mp hx with rfl | hx
        · exact .inl h.1
        · exact ih h.2 x hx
  | case3 c cs hcs ih =>
      have hc : (isWord c && isTail cs) = true := by
        rw [isTail] at h
        · exact h
        · exact hcs
      rw [Bool.and_eq_true] at hc
      intro x hx
      rcases List.mem_cons.mp hx with rfl | hx
      · exact .inl hc.1
      · exact ih hc.2 x hx

namespace Identifier

theorem chars (name : Identifier) : ∀ c ∈ name.text.toList, isWord c = true ∨ c = '.' := by
  have hvalid := name.valid
  rw [isIdentifier, Bool.and_eq_true] at hvalid
  intro c hc
  cases htext : name.text.toList with
  | nil =>
      rw [htext] at hc
      cases hc
  | cons d cs =>
      rw [htext, Bool.and_eq_true] at hvalid
      rw [htext] at hc
      rcases List.mem_cons.mp hc with rfl | hc
      · left
        have hfirst := hvalid.1.1
        rw [Bool.or_eq_true] at hfirst
        rw [isWord, Bool.or_eq_true]
        exact hfirst.imp (fun halpha ↦ by rw [Char.isAlphanum, halpha]; rfl) id
      · exact isTail_chars hvalid.1.2 c hc

theorem ne_of_mem (name : Identifier) {c : Char} (hword : isWord c = false) (hdot : c ≠ '.') :
    c ∉ name.text.toList := by
  intro hc
  rcases name.chars c hc with h | h
  · rw [hword] at h
    exact Bool.false_ne_true h
  · exact hdot h

theorem lastPart_text (name : Identifier) : lastPart name.text = name.text.toList.reverse := by
  rw [lastPart, List.takeWhile_eq_self_iff]
  intro c hc
  have hcolon := name.ne_of_mem (c := ':') (by decide) (by decide)
  rw [decide_eq_true_eq]
  rintro rfl
  exact hcolon (List.mem_reverse.mp hc)

end Identifier

/-! ## Symbols -/

/-- The name of a symbol is an identifier behind a namespace. -/
def Symbol.Named (sym : Symbol) : Prop :=
  ∃ name : Identifier, lastPart sym.fullName = lastPart name.text

theorem named_symbolOf {seen : List Node} {node : Node} {sym : Symbol}
    (h : symbolOf seen node = some sym) : sym.Named := by
  cases node with
  | enumNode name =>
      cases h
      exact ⟨name, lastPart_getFullname seen name.text⟩
  | structNode s =>
      cases h
      exact ⟨s.name, lastPart_getFullname seen s.name.text⟩
  | messageNode m =>
      cases h
      exact ⟨m.name, lastPart_getFullname seen m.name.text⟩
  | includeNode _ => cases h
  | namespaceNode _ => cases h
  | txNode _ => cases h

theorem SymbolTable.mem_add {table : SymbolTable} {sym new : Symbol}
    (h : sym ∈ table.add new) : sym ∈ table ∨ sym = new := by
  rw [SymbolTable.add] at h
  cases hlookup : table.lookup new.fullName with
  | none =>
      rw [hlookup] at h
      rcases List.mem_append.mp h with h | h
      · exact .inl h
      · exact .inr (List.mem_singleton.mp h)
  | some _ =>
      rw [hlookup] at h
      exact .inl h

theorem named_addSymbols {table : SymbolTable} (htable : ∀ sym ∈ table, sym.Named)
    (seen nodes : List Node) : ∀ sym ∈ addSymbols table seen nodes, sym.Named := by
  induction nodes generalizing table seen with
  | nil => exact htable
  | cons node nodes ih =>
      apply ih
      cases hnode : symbolOf seen node with
      | none => exact htable
      | some new =>
          intro sym hsym
          rcases SymbolTable.mem_add hsym with hsym | rfl
          · exact htable sym hsym
          · exact named_symbolOf hnode

theorem named_symbols (programs : List Program) : ∀ sym ∈ symbols programs, sym.Named := by
  have hfold : ∀ table : SymbolTable, (∀ sym ∈ table, sym.Named) →
      ∀ sym ∈ programs.foldl (fun table program ↦ addSymbols table [] program.nodes) table,
        sym.Named := by
    induction programs with
    | nil => exact fun _ h ↦ h
    | cons program programs ih =>
        intro table htable
        exact ih _ (named_addSymbols htable [] program.nodes)
  exact hfold [] (by simp)

/-! ## What is no enumeration -/

theorem named_of_isEnumSymbol {programs : List Program} {name : String}
    (h : isEnumSymbol (symbols programs) name = true) :
    ∃ id : Identifier, lastPart name = lastPart id.text := by
  cases hlookup : (symbols programs).lookup name with
  | none =>
      rw [isEnumSymbol, hlookup] at h
      cases h
  | some sym =>
      have hmem := List.mem_of_find?_eq_some hlookup
      have heq : sym.fullName = name := by simpa using List.find?_some hlookup
      rw [← heq]
      exact named_symbols programs sym hmem

theorem named_of_isEnum {programs : List Program} {program : Program} {field : Field}
    (h : isEnum (symbols programs) program field = true) :
    ∃ id : Identifier, lastPart field.type.getName = id.text.toList.reverse := by
  rw [isEnum, Bool.or_eq_true] at h
  rcases h with h | h
  · obtain ⟨id, hid⟩ := named_of_isEnumSymbol h
    exact ⟨id, hid.trans id.lastPart_text⟩
  · obtain ⟨id, hid⟩ := named_of_isEnumSymbol h
    rw [lastPart_getFullname] at hid
    exact ⟨id, hid.trans id.lastPart_text⟩

theorem isEnum_vec (programs : List Program) (program : Program) (value : BasicType) (count : ℤ)
    (name : String) : isEnum (symbols programs) program ⟨.vec value count, name⟩ = false := by
  rw [← Bool.not_eq_true]
  intro h
  obtain ⟨id, hid⟩ := named_of_isEnum h
  have hlist : ("vec<" ++ value.getName ++ ">").toList.reverse =
      '>' :: ("vec<" ++ value.getName).toList.reverse := by
    simp
  have hmem : '>' ∈ lastPart ("vec<" ++ value.getName ++ ">") := by
    rw [lastPart, hlist, List.takeWhile_cons]
    simp
  have hid : lastPart ("vec<" ++ value.getName ++ ">") = id.text.toList.reverse := hid
  rw [hid] at hmem
  exact id.ne_of_mem (by decide) (by decide) (List.mem_reverse.mp hmem)

end WiseKernel.Idl
