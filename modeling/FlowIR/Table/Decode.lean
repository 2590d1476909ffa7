import FlowIR.Json.Buffer
import FlowIR.Json.Decode
import FlowIR.Json.Reader
import FlowIR.Table.Basic

/-!
# Reading tables

Fields that a table does not know are skipped whatever they hold. Everything else has to be of the
right shape, and at most 127 lists and objects may be open at once. Which number a numeral stands
for is for the format to say.
-/
namespace FlowIR.Table

open Json (record? required? defaulted? choice? listOf? nullable? uint32? uint64? int64?
  bool? string?)

/-- The number of lists and objects that may be open at once. -/
def maxNesting : Nat := 127

def boolField? (fields : List (String × Json)) (name : String) : Option Bool :=
  defaulted? fields name false bool?

def uint32Field? (fields : List (String × Json)) (name : String) : Option UInt32 :=
  defaulted? fields name 0 uint32?

def keysField? (fields : List (String × Json)) (name : String) : Option (List Key) :=
  defaulted? fields name [] (listOf? uint64?)

def stringField? (fields : List (String × Json)) (name : String) : Option String :=
  defaulted? fields name "" string?

def optionField? {α : Type} (fields : List (String × Json)) (name : String)
    (decode : Json → Option α) : Option (Option α) :=
  defaulted? fields name none (nullable? decode)

/-! ### Types -/

namespace TypeExpr

def plain? (name : String) : Option TypeExpr :=
  if name = "void" then some void
  else if name = "label" then some label
  else if name = "metadata" then some metadata
  else none

/-- The alternatives whose data holds no types. -/
def scalar? (room : Nat) (name : String) (data : Json) : Option TypeExpr :=
  match name with
  | "integer" => (uint32? data).map integer
  | "float" => (choice? room FloatKind.ofName? data).map float
  | "opaque" => (string? data).map opaqueType
  | "ref" => (uint64? data).map ref
  | "upref" => (uint32? data).map upref
  | _ => none

/-- The alternatives whose data is a record with types in it. -/
def compound? (one : Json → Option TypeExpr) (many : Json → Option (List TypeExpr)) (name : String)
    (data : Json) : Option TypeExpr :=
  match name with
  | "pointer" => do
    let fields ← record? ["pointee", "addr_space"] data
    return pointer (← required? fields "pointee" one) (← uint32Field? fields "addr_space")
  | "array" => do
    let fields ← record? ["len", "elem"] data
    return array (← required? fields "len" uint64?) (← required? fields "elem" one)
  | "vector" => do
    let fields ← record? ["len", "elem"] data
    return vector (← required? fields "len" uint64?) (← required? fields "elem" one)
  | "function" => do
    let fields ← record? ["ret", "params", "vararg"] data
    return function (← required? fields "ret" one) (← defaulted? fields "params" [] many)
      (← boolField? fields "vararg")
  | "struct" => do
    let fields ← record? ["fields", "packed"] data
    return struct (← required? fields "fields" many) (← boolField? fields "packed")
  | "named" => do
    let fields ← record? ["name", "inner"] data
    return named (← required? fields "name" string?) (← required? fields "inner" one)
  | _ => none

/-- A type where so many more lists and objects may be opened. -/
def ofJson? : Nat → Json → Option TypeExpr
  | room + 1, .object [(some name, data)] =>
    match plain? name, data, scalar? room name data, room with
    | some ty, .null, _, _ => some ty
    | none, _, some ty, _ => some ty
    | none, _, none, inside + 1 =>
      let many := match inside with
        | 0 => fun _ => none
        | within + 1 => listOf? (ofJson? within)
      compound? (ofJson? inside) many name data
    | _, _, _, _ => none
  | _, .text (some name) => plain? name
  | _, _ => none

end TypeExpr

/-- A table has two lists open around the record. -/
def TypeRecord.ofJson? (document : Json) : Option TypeRecord := do
  let fields ← record? ["key", "ty"] document
  return { key := ← required? fields "key" uint64?
           ty := ← required? fields "ty" (TypeExpr.ofJson? (maxNesting - 3)) }

/-! ### Payloads -/

def visibilityField? (fields : List (String × Json)) : Option Visibility :=
  defaulted? fields "visibility" .standard (choice? maxNesting Visibility.ofName?)

def linkageField? (fields : List (String × Json)) : Option Linkage :=
  defaulted? fields "linkage" .external (choice? maxNesting Linkage.ofName?)

def conventionField? (fields : List (String × Json)) (decode : Json → Option CallingConvention) :
    Option CallingConvention :=
  defaulted? fields "calling_convention" .c decode

def conventionOfJson? : Json → Option CallingConvention
  | .object [(some "Other", data)] => (uint32? data).map .other
  | document => choice? maxNesting CallingConvention.ofName? document

/-- In an expression an empty object also stands for no data. -/
def conventionInExpr? : Json → Option CallingConvention
  | .object [(some name, .object [])] => CallingConvention.ofName? name
  | document => conventionOfJson? document

namespace InstructionFields

def names : List String :=
  ["operands", "predicate", "in_bounds", "indices", "volatile", "align", "addr_space",
   "calling_convention", "tail_call", "struct_return"]

def ofFields? (fields : List (String × Json)) (convention : Json → Option CallingConvention) :
    Option InstructionFields := do
  return { operands := ← keysField? fields "operands"
           predicate := ← optionField? fields "predicate" uint32?
           inBounds := ← boolField? fields "in_bounds"
           indices := ← defaulted? fields "indices" [] (listOf? uint32?)
           isVolatile := ← boolField? fields "volatile"
           align := ← uint32Field? fields "align"
           addrSpace := ← uint32Field? fields "addr_space"
           callingConvention := ← conventionField? fields convention
           tailCall := ← boolField? fields "tail_call"
           structReturn := ← boolField? fields "struct_return" }

def ofJson? (document : Json) : Option InstructionFields := do
  ofFields? (← record? names document) conventionOfJson?

end InstructionFields

namespace ExprFields

/-- Tables, lists of values, values, payloads and constants are open around an expression. -/
def room : Nat := maxNesting - 6

/-- The opcode stands among the fields of the instruction, and all fields of the object are kept
until the instruction is read, unknown ones included. An expression is not written as a list. -/
def ofJson? (format : Double.Format) : Json → Option ExprFields
  | .object fields => do
    let known ← Json.knownFields? ("opcode" :: InstructionFields.names) fields
    guard (Json.fieldsFit format room (fields.filter fun (key, _) => key ≠ some "opcode"))
    let opcode ← required? known "opcode" (choice? maxNesting Tag.ofName?)
    return { opcode, instruction := ← InstructionFields.ofFields? known conventionInExpr? }
  | _ => none

end ExprFields

def ConstantFields.ofJson? (format : Double.Format) (document : Json) : Option ConstantFields := do
  let fields ← record? ["operands", "int_value", "float_value", "string_value", "expr"] document
  return { operands := ← keysField? fields "operands"
           intValue := ← optionField? fields "int_value" int64?
           floatValue := ← optionField? fields "float_value" (Json.double? format)
           stringValue := ← optionField? fields "string_value" string?
           expr := ← optionField? fields "expr" (ExprFields.ofJson? format) }

def ArgumentFields.ofJson? (document : Json) : Option ArgumentFields := do
  let fields ← record? ["sret", "byval", "nest", "noalias", "nocapture"] document
  return { sret := ← boolField? fields "sret"
           byval := ← boolField? fields "byval"
           nest := ← boolField? fields "nest"
           noAlias := ← boolField? fields "noalias"
           noCapture := ← boolField? fields "nocapture" }

def BlockFields.ofJson? (document : Json) : Option BlockFields := do
  let fields ← record? ["instructions"] document
  return { instructions := ← keysField? fields "instructions" }

def GlobalFields.ofJson? (document : Json) : Option GlobalFields := do
  let fields ← record? ["external", "align", "visibility", "linkage", "section", "thread_local",
    "constant", "initializer"] document
  return { external := ← boolField? fields "external"
           align := ← uint32Field? fields "align"
           visibility := ← visibilityField? fields
           linkage := ← linkageField? fields
           sectionName := ← optionField? fields "section" string?
           threadLocal := ← boolField? fields "thread_local"
           constant := ← boolField? fields "constant"
           initializer := ← optionField? fields "initializer" uint64? }

def AliasFields.ofJson? (document : Json) : Option AliasFields := do
  let fields ← record? ["visibility", "linkage", "aliasee"] document
  return { visibility := ← visibilityField? fields
           linkage := ← linkageField? fields
           aliasee := ← required? fields "aliasee" uint64? }

def FunctionFields.ofJson? (document : Json) : Option FunctionFields := do
  let fields ← record? ["external", "align", "visibility", "linkage", "section",
    "calling_convention", "gc", "arguments", "blocks", "vararg"] document
  return { external := ← boolField? fields "external"
           align := ← uint32Field? fields "align"
           visibility := ← visibilityField? fields
           linkage := ← linkageField? fields
           sectionName := ← optionField? fields "section" string?
           callingConvention := ← conventionField? fields conventionOfJson?
           gc := ← optionField? fields "gc" string?
           arguments := ← keysField? fields "arguments"
           blocks := ← keysField? fields "blocks"
           vararg := ← boolField? fields "vararg" }

def AsmFields.ofJson? (document : Json) : Option AsmFields := do
  let fields ← record? ["asm", "constraints", "side_effects"] document
  return { asm := ← stringField? fields "asm"
           constraints := ← stringField? fields "constraints"
           sideEffects := ← boolField? fields "side_effects" }

def Payload.ofJson? (format : Double.Format) : Json → Option Payload
  | .text (some "none") => some .none
  | .object [(some name, data)] =>
    match name with
    | "none" => if data matches .null then some .none else Option.none
    | "instruction" => (InstructionFields.ofJson? data).map .instruction
    | "constant" => (ConstantFields.ofJson? format data).map .constant
    | "argument" => (ArgumentFields.ofJson? data).map .argument
    | "block" => (BlockFields.ofJson? data).map .block
    | "global" => (GlobalFields.ofJson? data).map .global
    | "alias" => (AliasFields.ofJson? data).map .globalAlias
    | "function" => (FunctionFields.ofJson? data).map .function
    | "inline_asm" => (AsmFields.ofJson? data).map .inlineAsm
    | _ => Option.none
  | _ => Option.none

/-! ### Values and tables -/

def Location.ofJson? (document : Json) : Option Location := do
  let fields ← record? ["file", "line", "column"] document
  return { file := ← required? fields "file" string?
           line := ← required? fields "line" uint32?
           column := ← uint32Field? fields "column" }

def ValueRecord.ofJson? (format : Double.Format) (document : Json) : Option ValueRecord := do
  let fields ← record? ["key", "tag", "name", "ty", "location", "payload"] document
  return { key := ← required? fields "key" uint64?
           tag := ← required? fields "tag" (choice? maxNesting Tag.ofName?)
           name := ← optionField? fields "name" string?
           ty := ← required? fields "ty" uint64?
           location := ← optionField? fields "location" Location.ofJson?
           payload := ← defaulted? fields "payload" .none (Payload.ofJson? format) }

def ofJsonWith? (format : Double.Format) (document : Json) : Option Table := do
  let fields ← record? ["identifier", "data_layout", "target_triple", "inline_asm", "error",
    "little_endian", "pointer_size", "types", "values", "globals", "aliases", "functions"] document
  return { identifier := ← stringField? fields "identifier"
           dataLayout := ← stringField? fields "data_layout"
           targetTriple := ← stringField? fields "target_triple"
           inlineAsm := ← stringField? fields "inline_asm"
           error := ← optionField? fields "error" string?
           littleEndian := ← boolField? fields "little_endian"
           pointerSize := ← uint32Field? fields "pointer_size"
           types := ← defaulted? fields "types" [] (listOf? TypeRecord.ofJson?)
           values := ← defaulted? fields "values" [] (listOf? (ValueRecord.ofJson? format))
           globals := ← keysField? fields "globals"
           aliases := ← keysField? fields "aliases"
           functions := ← keysField? fields "functions" }

def ofJson? (document : Json) : Option Table := ofJsonWith? numberFormat document

def parseWith? (format : Double.Format) (text : String) : Option Table :=
  (Json.parse? text).bind (ofJsonWith? format)

/-- The table that a text describes. -/
def parse? (text : String) : Option Table := parseWith? numberFormat text

end FlowIR.Table
