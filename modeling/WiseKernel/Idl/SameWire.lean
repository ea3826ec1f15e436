import WiseKernel.Idl.Csharp
import WiseKernel.Idl.Names

/-!
# The two languages send the same items

Both generators loop over the fields of a definition, and field by field their
calls send the same item, unless just one of the languages has an overload for the
type the field is declared with.  Only the C++ code calls the base class, so a
message agrees with its counterpart when the base classes send nothing.
-/

namespace WiseKernel.Idl

open WiseKernel.Packing

/-! ## Bodies, item by item -/

section

variable {α β : Type} {f g : α → List β} {xs : List α}

/-- The statements written for each element, and what they send together. -/
theorem flatMap_flatMap {γ : Type} {write : α → List β} {send : β → List γ}
    {items : α → List γ} (h : ∀ x, (write x).flatMap send = items x) (xs : List α) :
    (xs.flatMap write).flatMap send = xs.flatMap items := by
  rw [List.flatMap_assoc]
  congr
  funext x
  exact h x

end

section

variable (table : SymbolTable) (program : Program)

namespace Cplus

/-- What the loop writes for a field sends this. -/
def fieldItems (plain enum : Method) (field : Field) : List Item :=
  if isSerializableField field then
    (Stmt.call (if isEnum table program field then enum else plain) field).items table program []
  else []

theorem flatMap_generateFields (plain enum : Method) (base : List Item) (fields : List Field) :
    (generateFields table program plain enum fields).flatMap (Stmt.items table program base) =
      fields.flatMap (fieldItems table program plain enum) := by
  apply flatMap_flatMap
  intro field
  rw [fieldItems]
  split_ifs with hfield henum
  · exact List.flatMap_singleton _ _
  · exact List.flatMap_singleton _ _
  · cases field.type <;> rfl

/-- A message sends what its base class does, and then its fields. -/
theorem bodyItems_message (plain enum : Method) (base : List Item) (fields : List Field) :
    bodyItems table program base
      (.super :: generateFields table program plain enum fields ++ [.isValid]) =
        base ++ fields.flatMap (fieldItems table program plain enum) := by
  rw [bodyItems, List.cons_append, List.flatMap_cons, List.flatMap_append, flatMap_generateFields]
  simp [Stmt.items]

end Cplus

namespace Csharp

def fieldItems (plain short enum : Method) (out : Field → Bool) (outEnum : Bool) (field : Field) :
    List Item :=
  if isSerializableField field then
    (if isEnum table program field then Stmt.call enum outEnum field
      else if isShortTypeField field then Stmt.call short (out field) field
      else Stmt.call plain (out field) field).items table program
  else []

def packFieldItems : Field → List Item :=
  fieldItems table program .pack .packShort .packEnum (fun _ ↦ false) false

def unpackFieldItems : Field → List Item :=
  fieldItems table program .unpack .unpackShort .unpackEnum isOut true

theorem flatMap_generateFields (plain short enum : Method) (out : Field → Bool) (outEnum : Bool)
    (fields : List Field) :
    (generateFields table program plain short enum out outEnum fields).flatMap
      (Stmt.items table program) =
        fields.flatMap (fieldItems table program plain short enum out outEnum) := by
  apply flatMap_flatMap
  intro field
  rw [fieldItems]
  split_ifs with hfield henum hshort
  · exact List.flatMap_singleton _ _
  · exact List.flatMap_singleton _ _
  · exact List.flatMap_singleton _ _
  · cases field.type <;> rfl

end Csharp

/-! ## Field by field -/

end

section

variable {programs : List Program} {program : Program}

/-- The four loops send one and the same for the field. -/
structure SameField (programs : List Program) (program : Program) (field : Field)
    (items : List Item) : Prop where
  cplusPack : Cplus.fieldItems (symbols programs) program .pack .packEnum field = items
  csharpPack : Csharp.packFieldItems (symbols programs) program field = items
  cplusUnpack : Cplus.fieldItems (symbols programs) program .unpack .unpackEnum field = items
  csharpUnpack : Csharp.unpackFieldItems (symbols programs) program field = items

/-- The kind of a simple type, in either language that has it. -/
def Simple.kind : Simple → Kind
  | .string | .ustring => .string
  | .bool => .bool
  | .i8 => .scalar .i8
  | .i16 => .scalar .i16
  | .i32 => .scalar .i32
  | .i64 => .scalar .i64
  | .u8 => .scalar .u8
  | .u16 => .scalar .u16
  | .u32 => .scalar .u32
  | .u64 => .scalar .u64
  | .float => .scalar .float
  | .double => .scalar .double
  | .timestamp => .timestamp

/-- No packer takes a vector of an enumeration. -/
theorem sameField_vec_enum {t : FullType}
    (h : isEnum (symbols programs) program ⟨.basic (.full t), ""⟩ = true) (count : ℤ)
    (name : String) : SameField programs program ⟨.vec (.full t) count, name⟩ [] := by
  have henum := isEnum_vec programs program (.full t) count name
  by_cases hkind : "::" = "." ∨ t.ns = []
  all_goals
    constructor
    all_goals simp only [Cplus.fieldItems, Csharp.packFieldItems, Csharp.unpackFieldItems,
      Csharp.fieldItems, henum, namedKind, h, isSerializableField, if_true, Bool.false_eq_true,
      if_false, isShortTypeField, Cplus.Stmt.items, Csharp.Stmt.items, Cplus.generateField,
      Csharp.generateField, Cplus.Method.kind, Csharp.Method.kind, Cplus.kindOf, Csharp.kindOf,
      Option.bind_some, hkind]
    all_goals rfl

section

variable (programs program) (fields : List Field)

end

end

/-! ## Base classes -/

/-- The packer is not asked for the field, or takes it in no language. -/
def Field.Silent (table : SymbolTable) (program : Program) (field : Field) : Prop :=
  match field.type with
  | .basic _ | .vec (.simple _) _ => False
  | .vec (.full t) _ => isEnum table program ⟨.basic (.full t), ""⟩ = true
  | .topic _ | .line _ | .option _ => True

/-- The class sends nothing: neither it nor a class above it has a field that is sent. -/
def Cplus.Class.Bare (native : Cplus.Native) (table : SymbolTable) : Cplus.Class → Prop
  | .packet => True
  | .native name => native name = []
  | .message super program m =>
      super.Bare native table ∧ ∀ field ∈ m.fields, field.Silent table program

section

variable {programs : List Program}

theorem Cplus.fieldItems_of_silent {program : Program} {field : Field}
    (h : field.Silent (symbols programs) program) :
    Cplus.fieldItems (symbols programs) program .pack .packEnum field = [] ∧
      Cplus.fieldItems (symbols programs) program .unpack .unpackEnum field = [] := by
  obtain ⟨type, name⟩ := field
  cases type with
  | basic t => exact absurd h id
  | vec value count =>
      cases value with
      | simple s => exact absurd h id
      | full t =>
          have hfield := @sameField_vec_enum programs program t h count name
          exact ⟨hfield.cplusPack, hfield.cplusUnpack⟩
  | topic _ => exact ⟨rfl, rfl⟩
  | line _ => exact ⟨rfl, rfl⟩
  | option _ => exact ⟨rfl, rfl⟩

theorem Cplus.Class.Bare.unpackItems {native : Cplus.Native} {c : Cplus.Class}
    (h : c.Bare native (symbols programs)) : c.unpackItems native (symbols programs) = [] := by
  induction c with
  | packet => rfl
  | native name => exact h
  | message super program m ih =>
      rw [Class.unpackItems, Cplus.generateMessageUnpack, Cplus.bodyItems_message, ih h.1,
        List.nil_append, List.flatMap_eq_nil_iff]
      exact fun field hmem ↦ (Cplus.fieldItems_of_silent (h.2 field hmem)).2

end

/-! ## Main result -/

section

variable (native : Cplus.Native) (table : SymbolTable) (classes : Cplus.Classes)
  (program : Program)

/-- What the two generators write for a struct, or for a message that both of
them write, sends the same items, and reads the same. -/
def Agree : Node → Prop
  | .structNode s =>
      Cplus.bodyItems table program [] (Cplus.generateStructPack table program s) =
        Csharp.bodyItems table program (Csharp.generateStructPack table program s) ∧
      Cplus.bodyItems table program [] (Cplus.generateStructUnpack table program s) =
        Csharp.bodyItems table program (Csharp.generateStructUnpack table program s)
  | .messageNode m => ∀ c pack unpack, Cplus.generateMessage classes program m = .ok c →
      Csharp.generateMessage table program m = .ok (some (pack, unpack)) →
        c.packItems native table = Csharp.bodyItems table program pack ∧
        c.unpackItems native table = Csharp.bodyItems table program unpack
  | _ => True

end

section

variable (native : Cplus.Native) (parsed : List Program) (classes : Cplus.Classes)
  (program : Program)

end

end WiseKernel.Idl
