import WiseKernel.Idl.Cplus

/-!
# What the C# generator writes for structs and messages

The bodies of `Pack` and `Unpack`, and their items by the overloads of the
client's `Packer`.  A call for which there is no overload does not compile and
sends nothing.
-/

namespace WiseKernel.Idl.Csharp

open WiseKernel.Packing

/-! ## Members -/

/-- `get_typename_in_csharp`. -/
def getTypenameInCsharp : Simple → String
  | .string => "string"
  | .ustring => "string"
  | .bool => "bool"
  | .i8 => "sbyte"
  | .i16 => "short"
  | .i32 => "int"
  | .i64 => "long"
  | .u8 => "byte"
  | .u16 => "ushort"
  | .u32 => "uint"
  | .u64 => "ulong"
  | .float => "float"
  | .double => "double"
  | .timestamp => "wise.timestamp"

/-- `generate_field`; the elements of a list are declared with `get_name`. -/
def generateField : FieldType → Option Declared
  | .basic (.simple s) => some (.plain (.keyword (getTypenameInCsharp s)))
  | .basic (.full t) => some (.plain (.path "." t))
  | .vec (.simple s) _ => some (.list (.keyword (getTypenameInCsharp s)))
  | .vec (.full t) _ => some (.list (.path "::" t))
  | .topic _ | .line _ | .option _ => none

section

variable (table : SymbolTable) (program : Program)

/-- The type a name denotes.  The client has a class `wise.Timestamp` and none
called `wise.timestamp`; in front of `::` stands an alias, and there is none. -/
def kindOf : TypeName → Option Kind
  | .keyword "string" => some .string
  | .keyword "bool" => some .bool
  | .keyword "sbyte" => some (.scalar .i8)
  | .keyword "short" => some (.scalar .i16)
  | .keyword "int" => some (.scalar .i32)
  | .keyword "long" => some (.scalar .i64)
  | .keyword "byte" => some (.scalar .u8)
  | .keyword "ushort" => some (.scalar .u16)
  | .keyword "uint" => some (.scalar .u32)
  | .keyword "ulong" => some (.scalar .u64)
  | .keyword "float" => some (.scalar .float)
  | .keyword "double" => some (.scalar .double)
  | .keyword _ => none
  | .path separator t =>
      if separator = "." ∨ t.ns = [] then some (namedKind table program t) else none

/-! ## Bodies -/

inductive Method
  | pack | packShort | packEnum | unpack | unpackShort | unpackEnum
  deriving DecidableEq, Repr

/-- The overload of `Packer` for a value.  There is no `Pack` for the two short
types, and a `short` becomes an `int` there; an `out` parameter needs its own
type; the overload for the other classes asks for an interface, which an
enumeration does not have. -/
def Method.plainKind : Method → Bool → Kind → Option Kind
  | .pack, false, .enum | .unpack, true, .enum => none
  | .pack, false, .scalar .i16 | .pack, false, .scalar .u16 => some (.scalar .i32)
  | .pack, false, k => some k
  | .packShort, false, .scalar .i16 | .unpackShort, true, .scalar .i16 => some (.scalar .i16)
  | .packShort, false, .scalar .u16 | .unpackShort, true, .scalar .u16 => some (.scalar .u16)
  | .packEnum, false, _ | .unpackEnum, true, _ => some .enum
  | .unpack, true, .scalar .i16 | .unpack, true, .scalar .u16 => none
  | .unpack, true, k => some k
  | _, _, _ => none

/-- The overload for a list, which is never an `out` parameter. -/
def Method.listKind : Method → Bool → Kind → Option Kind
  | .pack, false, .enum | .unpack, false, .enum => none
  | .pack, false, k | .unpack, false, k => some (.list k)
  | _, _, _ => none

def Method.kind (method : Method) (out : Bool) : Declared → Option Kind
  | .plain t => (kindOf table program t).bind (method.plainKind out)
  | .list t => (kindOf table program t).bind (method.listKind out)

end

inductive Stmt
  /-- `packer.Method(stream, variable);`, with or without `out` -/
  | call (method : Method) (out : Bool) (field : Field)
  | line (text : String)
  /-- `return true;` -/
  | isTrue
  deriving DecidableEq

section

variable (table : SymbolTable) (program : Program)

/-- The loop over the fields, which four functions of the generator have; `out`
tells where the word is written. -/
def generateFields (plain short enum : Method) (out : Field → Bool) (outEnum : Bool)
    (fields : List Field) : List Stmt :=
  fields.flatMap fun field ↦
    if isSerializableField field then
      if isEnum table program field then [.call enum outEnum field]
      else if isShortTypeField field then [.call short (out field) field]
      else [.call plain (out field) field]
    else match field.type with
      | .line text => [.line text]
      | _ => []

/-- Unpacking passes everything but a list as `out`. -/
def isOut (field : Field) : Bool :=
  match field.type with
  | .vec _ _ => false
  | _ => true

def generatePack (fields : List Field) : List Stmt :=
  generateFields table program .pack .packShort .packEnum (fun _ ↦ false) false fields ++ [.isTrue]

def generateUnpack (fields : List Field) : List Stmt :=
  generateFields table program .unpack .unpackShort .unpackEnum isOut true fields ++ [.isTrue]

def generateStructPack (s : Struct) : List Stmt := generatePack table program s.fields

def generateStructUnpack (s : Struct) : List Stmt := generateUnpack table program s.fields

/-- There is no call of the base class. -/
def generateMessagePack (m : Message) : List Stmt := generatePack table program m.fields

def generateMessageUnpack (m : Message) : List Stmt := generateUnpack table program m.fields

def Stmt.items : Stmt → List Item
  | .call method out field =>
      (((generateField field.type).bind (method.kind table program out)).map fun k ↦
        Item.mk k field.variableName).toList
  | .line _ | .isTrue => []

def bodyItems (body : List Stmt) : List Item := body.flatMap (Stmt.items table program)

end

/-! ## Messages -/

/-- The message of a class the client does not know is skipped. -/
def isHx (m : Message) : Bool :=
  match m.superClass with
  | none => false
  | some name => name.getTypenameIn "." == "wise.hx"

/-- The bodies of `Pack` and `Unpack`, unless the message is skipped. -/
def generateMessage (table : SymbolTable) (program : Program) (m : Message) :
    Except String (Option (List Stmt × List Stmt)) :=
  if isHx m then .ok none
  else match generateMessageTopic m.fields with
    | .error _ => .error "Failed to generate topic"
    | .ok () => .ok (some (generateMessagePack table program m,
        generateMessageUnpack table program m))

end WiseKernel.Idl.Csharp
