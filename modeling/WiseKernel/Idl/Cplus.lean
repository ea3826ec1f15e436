import WiseKernel.Idl.Program
import WiseKernel.Packing.Types

/-!
# What the C++ generator writes for structs and messages

The bodies of `pack` and `unpack` as lists of statements, and what they put on
the wire: one item for every call of the packer, of the kind its overload for
the declared type of the variable has.  A call for which there is no overload
does not compile and sends nothing.  A message calls the function of its base class
first, which C++ finds among the classes declared before.
-/

namespace WiseKernel.Idl

open WiseKernel.Packing

/-! ## Items -/

/-- How a call of a packer fills its part of the message: a list is its length
and its elements, a string its length and its octets in UTF-8, an enumerator an
`int32_t`, and a class whatever its own function sends. -/
inductive Kind
  | bool
  | scalar (s : Scalar)
  | string
  | timestamp
  | enum
  | object (name : FullType)
  | list (k : Kind)
  deriving DecidableEq

structure Item where
  kind : Kind
  field : String
  deriving DecidableEq

/-- A type as the generated text names it. -/
inductive TypeName
  | keyword (text : String)
  | path (separator : String) (t : FullType)
  deriving DecidableEq

/-- The type of a member: one value, or a vector of them. -/
inductive Declared
  | plain (t : TypeName)
  | list (t : TypeName)
  deriving DecidableEq

/-- A class, or an enumeration, by its name. -/
def namedKind (table : SymbolTable) (program : Program) (t : FullType) : Kind :=
  if isEnum table program ⟨.basic (.full t), ""⟩ then .enum else .object t

namespace Cplus

/-! ## Members -/

/-- `get_typename_in_cplus`. -/
def getTypenameInCplus : Simple → String
  | .string => "std::string"
  | .ustring => "std::wstring"
  | .bool => "bool"
  | .i8 => "int8_t"
  | .i16 => "int16_t"
  | .i32 => "int32_t"
  | .i64 => "int64_t"
  | .u8 => "uint8_t"
  | .u16 => "uint16_t"
  | .u32 => "uint32_t"
  | .u64 => "uint64_t"
  | .float => "float"
  | .double => "double"
  | .timestamp => "wise::kernel::timestamp"

/-- `generate_field`: the type the member is declared with, if there is one. -/
def generateField : FieldType → Option Declared
  | .basic (.simple s) => some (.plain (.keyword (getTypenameInCplus s)))
  | .basic (.full t) => some (.plain (.path "::" t))
  | .vec (.simple s) _ => some (.list (.keyword (getTypenameInCplus s)))
  | .vec (.full t) _ => some (.list (.path "::" t))
  | .topic _ | .line _ | .option _ => none

section

variable (table : SymbolTable) (program : Program)

/-- The type a name denotes. -/
def kindOf : TypeName → Option Kind
  | .keyword "std::string" | .keyword "std::wstring" => some .string
  | .keyword "bool" => some .bool
  | .keyword "int8_t" => some (.scalar .i8)
  | .keyword "int16_t" => some (.scalar .i16)
  | .keyword "int32_t" => some (.scalar .i32)
  | .keyword "int64_t" => some (.scalar .i64)
  | .keyword "uint8_t" => some (.scalar .u8)
  | .keyword "uint16_t" => some (.scalar .u16)
  | .keyword "uint32_t" => some (.scalar .u32)
  | .keyword "uint64_t" => some (.scalar .u64)
  | .keyword "float" => some (.scalar .float)
  | .keyword "double" => some (.scalar .double)
  | .keyword "wise::kernel::timestamp" => some .timestamp
  | .keyword _ => none
  | .path _ t => some (namedKind table program t)

/-! ## Bodies -/

inductive Method
  | pack | packEnum | unpack | unpackEnum
  deriving DecidableEq, Repr

/-- The overload of `bits_packer` for a value.  What has no overload of its own
is asked for a member function, and an enumerator has none. -/
def Method.plainKind : Method → Kind → Option Kind
  | .pack, .enum | .unpack, .enum => none
  | .pack, k | .unpack, k => some k
  | .packEnum, .enum | .packEnum, .scalar _ | .packEnum, .bool => some .enum
  | .unpackEnum, .enum | .unpackEnum, .scalar _ | .unpackEnum, .bool => some .enum
  | _, _ => none

/-- The overload for a vector, by that for its elements; an element of a
`std::vector<bool>` is no `bool&`. -/
def Method.listKind : Method → Kind → Option Kind
  | .pack, .enum | .unpack, .enum | .unpack, .bool => none
  | .pack, k | .unpack, k => some (.list k)
  | .packEnum, _ | .unpackEnum, _ => none

def Method.kind (method : Method) : Declared → Option Kind
  | .plain t => (kindOf table program t).bind method.plainKind
  | .list t => (kindOf table program t).bind method.listKind

end

inductive Stmt
  /-- `super::pack(packer);`, or `unpack` in the body of `unpack` -/
  | super
  /-- `packer.method(variable);` for the variable of a field -/
  | call (method : Method) (field : Field)
  | line (text : String)
  /-- `return packer.is_valid();` -/
  | isValid
  deriving DecidableEq

section

variable (table : SymbolTable) (program : Program)

/-- The loop over the fields, which four functions of the generator have. -/
def generateFields (plain enum : Method) (fields : List Field) : List Stmt :=
  fields.flatMap fun field ↦
    if isSerializableField field then
      if isEnum table program field then [.call enum field] else [.call plain field]
    else match field.type with
      | .line text => [.line text]
      | _ => []

def generateStructPack (s : Struct) : List Stmt :=
  generateFields table program .pack .packEnum s.fields ++ [.isValid]

def generateStructUnpack (s : Struct) : List Stmt :=
  generateFields table program .unpack .unpackEnum s.fields ++ [.isValid]

def generateMessagePack (m : Message) : List Stmt :=
  .super :: generateFields table program .pack .packEnum m.fields ++ [.isValid]

def generateMessageUnpack (m : Message) : List Stmt :=
  .super :: generateFields table program .unpack .unpackEnum m.fields ++ [.isValid]

/-- The items of a statement, given those of the base class. -/
def Stmt.items (base : List Item) : Stmt → List Item
  | .super => base
  | .call method field =>
      (((generateField field.type).bind (method.kind table program)).map fun k ↦
        Item.mk k field.variableName).toList
  | .line _ | .isValid => []

def bodyItems (base : List Item) (body : List Stmt) : List Item :=
  body.flatMap (Stmt.items table program base)

end

/-! ## Classes -/

/-- A class a message may derive from: `bits_packet`, a class written by hand,
or that of a message of some program. -/
inductive Class
  | packet
  | native (name : FullType)
  | message (super : Class) (program : Program) (m : Message)

/-- What the classes written by hand send, and read. -/
abbrev Native := FullType → List Item

section

variable (native : Native) (table : SymbolTable)

/-- `bits_packet::pack` sends nothing. -/
def Class.packItems : Class → List Item
  | .packet => []
  | .native name => native name
  | .message super program m =>
      bodyItems table program super.packItems (generateMessagePack table program m)

def Class.unpackItems : Class → List Item
  | .packet => []
  | .native name => native name
  | .message super program m =>
      bodyItems table program super.unpackItems (generateMessageUnpack table program m)

end

/-- The classes declared so far, with their full names. -/
abbrev Classes := List (List Identifier × Class)

/-- `generate_namespace_begin`. -/
def namespaceOf (program : Program) : List Identifier :=
  (getNamespace program.nodes).getD [⟨"wise", by decide⟩]

/-- Name lookup from inside a namespace: through the enclosing ones, the
innermost first. -/
def Classes.resolve (classes : Classes) (ns : List Identifier) (name : FullType) : Class :=
  (ns.inits.reverse.findSome? fun scope ↦
    classes.lookup (scope ++ name.ns ++ [name.id])).getD (.native name)

def superClass (classes : Classes) (program : Program) (m : Message) : Class :=
  match m.superClass with
  | none => .packet
  | some name => classes.resolve (namespaceOf program) name

def generateMessage (classes : Classes) (program : Program) (m : Message) : Except String Class :=
  match generateMessageTopic m.fields with
  | .error _ => .error "Failed to generate topic"
  | .ok () => .ok (.message (superClass classes program m) program m)

end Cplus

end WiseKernel.Idl
