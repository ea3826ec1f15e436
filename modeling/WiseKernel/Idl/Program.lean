import Mathlib.Data.Int.Notation
import Mathlib.Data.List.Basic
import WiseKernel.Util.Split

/-!
# Programs of the interface definition language

The tree the parser builds from a file, the symbols it records on the way and
the questions about a field that every generator asks.  A name is an identifier
of the lexer by its type, so that it is none of the words the generators make
up.  A default value, and an enumerator's, have no part in how a field is sent
and are left out.
-/

namespace WiseKernel.Idl

/-! ## Words -/

/-- `[a-zA-Z_0-9]`. -/
def isWord (c : Char) : Bool := c.isAlphanum || c == '_'

/-- `(\.[a-zA-Z_0-9]|[a-zA-Z_0-9])*`. -/
def isTail : List Char → Bool
  | [] => true
  | '.' :: c :: cs => isWord c && isTail cs
  | c :: cs => isWord c && isTail cs

/-- The words of the language, which the lexer never takes for an identifier. -/
def keywords : List String :=
  ["bool", "i8", "i16", "i32", "i64", "u8", "u16", "u32", "u64", "float", "double", "timestamp",
    "string", "ustring", "vec", "topic", "enum", "struct", "message", "msg", "namespace", "include",
    "opt", "enable_cipher", "enable_checksum", "enable_sequence", "tx", "tx_bind", "tx_result",
    "tx_single", "tx_multi", "tx_query", "tx_out", "tx_return"]

def isIdentifier (text : String) : Bool :=
  (match text.toList with
  | [] => false
  | c :: cs => (c.isAlpha || c == '_') && isTail cs) && !keywords.contains text

/-- `tok_identifier`. -/
structure Identifier where
  text : String
  valid : isIdentifier text = true
  deriving DecidableEq

/-! ## Types -/

/-- `idl_type_simple::types`. -/
inductive Simple
  | string | ustring | bool
  | i8 | i16 | i32 | i64
  | u8 | u16 | u32 | u64
  | float | double | timestamp
  deriving DecidableEq, Repr

def Simple.typeName : Simple → String
  | .string => "string"
  | .ustring => "ustring"
  | .bool => "bool"
  | .i8 => "i8"
  | .i16 => "i16"
  | .i32 => "i32"
  | .i64 => "i64"
  | .u8 => "u8"
  | .u16 => "u16"
  | .u32 => "u32"
  | .u64 => "u64"
  | .float => "float"
  | .double => "double"
  | .timestamp => "timestamp"

/-- `idl_type_full`: an identifier behind the namespaces written before it. -/
structure FullType where
  ns : List Identifier
  id : Identifier
  deriving DecidableEq

/-- `get_namespace_string`, with the separator of the language. -/
def namespaceString (separator : String) : List Identifier → String
  | [] => ""
  | n :: ns => n.text ++ separator ++ namespaceString separator ns

def FullType.getTypenameIn (separator : String) (t : FullType) : String :=
  namespaceString separator t.ns ++ t.id.text

/-- The name is the one in C++, whatever language is generated. -/
def FullType.getName (t : FullType) : String := t.getTypenameIn "::"

inductive BasicType
  | full (t : FullType)
  | simple (s : Simple)
  deriving DecidableEq

def BasicType.getName : BasicType → String
  | .full t => t.getName
  | .simple s => s.typeName

/-- `idl_type_opt::opt`. -/
inductive Opt
  | enableCipher | enableChecksum | enableSequence
  deriving DecidableEq, Repr

/-- What stands in the place of a type in a `Field`. -/
inductive FieldType
  | basic (t : BasicType)
  | vec (value : BasicType) (count : ℤ)
  | topic (identifier : String)
  /-- `idl_type_macro`: a line for the preprocessor, copied to the output -/
  | line (text : String)
  | option (opt : Opt)
  deriving DecidableEq

/-- A type without a name of its own is called `unknown`. -/
def FieldType.getName : FieldType → String
  | .basic t => t.getName
  | .vec value _ => "vec<" ++ value.getName ++ ">"
  | .topic identifier => "topic: " ++ identifier
  | .line text => "macro: " ++ text
  | .option _ => "unknown"

/-- `idl_field`; topics, options and lines have no variable. -/
structure Field where
  type : FieldType
  variableName : String := ""
  deriving DecidableEq

/-! ## Definitions -/

structure Struct where
  name : Identifier
  fields : List Field
  deriving DecidableEq

structure Message where
  name : Identifier
  superClass : Option FullType
  fields : List Field
  deriving DecidableEq

def isQueryChar (c : Char) : Bool := isWord c || c == '.' || c == '[' || c == ']'

/-- `query_string` of the lexer: brackets around words, dots and brackets. -/
def isQueryString (text : List Char) : Bool :=
  text.head? == some '[' && text.getLast? == some ']' && text.all isQueryChar

/-- `tok_query_string`. -/
structure QueryString where
  text : List Char
  valid : isQueryString text = true
  deriving DecidableEq

/-- A field of `tx_bind`; `output` tells that `: tx_out` stands behind it. -/
structure TxField extends Field where
  output : Bool := false
  deriving DecidableEq

/-- `tx_bind`, with the name behind `tx_return`, which is empty without one. -/
structure TxBind where
  fields : List TxField
  ret : String := ""
  deriving DecidableEq

structure TxResultSet where
  single : Bool
  fields : List Field
  deriving DecidableEq

/-- `idl_node_tx`; each of its parts may be missing. -/
structure Tx where
  name : Identifier
  query : Option QueryString
  topic : Option String
  bind : Option TxBind
  result : Option (List TxResultSet)
  deriving DecidableEq

inductive Node
  | includeNode (path : List String)
  | namespaceNode (ns : List Identifier)
  | enumNode (name : Identifier)
  | structNode (s : Struct)
  | messageNode (m : Message)
  | txNode (t : Tx)
  deriving DecidableEq

/-- `idl_program`. -/
structure Program where
  nodes : List Node
  deriving DecidableEq

/-- The first namespace among the nodes. -/
def getNamespace : List Node → Option (List Identifier)
  | [] => none
  | .namespaceNode ns :: _ => some ns
  | _ :: nodes => getNamespace nodes

/-- `get_fullname`; the name of a namespace ends in a separator. -/
def getFullname (nodes : List Node) (name : String) : String :=
  match getNamespace nodes with
  | some ns => namespaceString "::" ns ++ name
  | none => name

/-! ## Symbols -/

/-- `idl_symbol`; its type is that of the node. -/
structure Symbol where
  fullName : String
  node : Node
  deriving DecidableEq

/-- `idl_symbol_table`. -/
abbrev SymbolTable := List Symbol

namespace SymbolTable

def lookup (table : SymbolTable) (fullSymbol : String) : Option Symbol :=
  table.find? fun sym ↦ sym.fullName == fullSymbol

/-- A second symbol of the same name is reported and dropped. -/
def add (table : SymbolTable) (sym : Symbol) : SymbolTable :=
  match table.lookup sym.fullName with
  | some _ => table
  | none => table ++ [sym]

end SymbolTable

/-- The symbol that is added for a node, before the node itself; a `tx` has
none. -/
def symbolOf (seen : List Node) : Node → Option Symbol
  | .enumNode name => some ⟨getFullname seen name.text, .enumNode name⟩
  | .structNode s => some ⟨getFullname seen s.name.text, .structNode s⟩
  | .messageNode m => some ⟨getFullname seen m.name.text, .messageNode m⟩
  | .includeNode _ | .namespaceNode _ | .txNode _ => none

/-- The actions of the parser on one file, of which the nodes `seen` are in the
program already. -/
def addSymbols (table : SymbolTable) (seen : List Node) : List Node → SymbolTable
  | [] => table
  | node :: nodes =>
      addSymbols (((symbolOf seen node).map table.add).getD table) (seen ++ [node]) nodes

/-- The table is shared by all files, in the order of their parsing. -/
def symbols (programs : List Program) : SymbolTable :=
  programs.foldl (fun table program ↦ addSymbols table [] program.nodes) []

/-! ## Questions about a field -/

def isEnumSymbol (table : SymbolTable) (fullSymbol : String) : Bool :=
  match table.lookup fullSymbol with
  | some ⟨_, .enumNode _⟩ => true
  | _ => false

/-- `generator::is_enum`: by the name as written, then with the namespace of the
program in front. -/
def isEnum (table : SymbolTable) (program : Program) (field : Field) : Bool :=
  isEnumSymbol table field.type.getName ||
    isEnumSymbol table (getFullname program.nodes field.type.getName)

def isSerializableField (field : Field) : Bool :=
  match field.type with
  | .line _ | .topic _ | .option _ => false
  | .basic _ | .vec _ _ => true

def isShortTypeField (field : Field) : Bool :=
  match field.type with
  | .basic (.simple .i16) | .basic (.simple .u16) => true
  | _ => false

/-- `wise::kernel::split(id, ".")`: the parts between the dots that are not
empty. -/
def split (id : String) : List (List Char) :=
  (id.toList.splitOnP (· == '.')).filter fun part ↦ !part.isEmpty

/-- The loop of the library computes these parts; of the empty string it makes one part,
which is not three either. -/
theorem split_toList (id : String) (hlength : id.toList.length < Util.npos)
    (hne : id.toList ≠ []) {fuel : ℕ} (hfuel : id.toList.length < fuel) :
    Util.split ⟨id.toList, hlength⟩ ['.'] 0 fuel = some (.ok (split id)) := by
  have hdot : ['.'].contains = fun c : Char ↦ c == '.' := by
    funext c
    rw [List.contains_cons, List.contains_nil, Bool.or_false]
  rw [Util.split_eq_tokens _ _ hne hfuel, hdot, split, Lib.tokens]

/-- `generate_topic` of either language; the text it writes is no part of the
serialization. -/
def generateTopic (id : String) : Except String Unit :=
  if (split id).length ≠ 3 then .error "topic is invalid" else .ok ()

/-- `generate_message_topic` of either language: the first topic counts. -/
def generateMessageTopic : List Field → Except String Unit
  | [] => .error "Topic field not found"
  | ⟨.topic id, _⟩ :: _ => generateTopic id
  | _ :: fields => generateMessageTopic fields

end WiseKernel.Idl
