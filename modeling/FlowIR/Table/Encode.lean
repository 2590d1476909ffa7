import FlowIR.Json.Printer
import FlowIR.Table.Basic

/-!
# Writing tables

Every field is written, in a fixed order, and choices without data are written as their names. The
digits of numbers are for the format to choose.
-/
namespace FlowIR.Table

namespace Encode

variable {α : Type}

def ofText (text : String) : Json := .text (some text)

def ofNat (n : Nat) : Json := .number (.ofInt n)

def ofInt (n : Int) : Json := .number (.ofInt n)

def ofUInt32 (n : UInt32) : Json := ofNat n.toNat

def ofUInt64 (n : UInt64) : Json := ofNat n.toNat

def ofOption (encode : α → Json) : Option α → Json
  | none => .null
  | some value => encode value

def ofList (encode : α → Json) (items : List α) : Json := .list (items.map encode)

def ofKeys (keys : List Key) : Json := ofList ofUInt64 keys

/-- A number that is not finite has no numeral. -/
def ofDouble (format : Double.Format) (d : Double) : Json :=
  if d.isFinite then .number (format.numeral d) else .null

def object (fields : List (String × Json)) : Json :=
  .object (fields.map fun (name, value) => (some name, value))

/-- An alternative with data. -/
def choice (name : String) (data : Json) : Json := object [(name, data)]

end Encode

open Encode

mutual

def TypeExpr.toJson : TypeExpr → Json
  | .void => ofText "void"
  | .label => ofText "label"
  | .metadata => ofText "metadata"
  | .integer width => choice "integer" (ofUInt32 width)
  | .float kind => choice "float" (ofText kind.name)
  | .pointer pointee addrSpace =>
    choice "pointer" (object [("pointee", pointee.toJson), ("addr_space", ofUInt32 addrSpace)])
  | .array len elem => choice "array" (object [("len", ofUInt64 len), ("elem", elem.toJson)])
  | .vector len elem => choice "vector" (object [("len", ofUInt64 len), ("elem", elem.toJson)])
  | .function ret params vararg =>
    choice "function" (object
      [("ret", ret.toJson), ("params", .list (TypeExpr.listToJson params)),
       ("vararg", .bool vararg)])
  | .struct fields packed =>
    choice "struct" (object
      [("fields", .list (TypeExpr.listToJson fields)), ("packed", .bool packed)])
  | .named name inner => choice "named" (object [("name", ofText name), ("inner", inner.toJson)])
  | .opaqueType name => choice "opaque" (ofText name)
  | .ref key => choice "ref" (ofUInt64 key)
  | .upref level => choice "upref" (ofUInt32 level)

def TypeExpr.listToJson : List TypeExpr → List Json
  | [] => []
  | ty :: tys => ty.toJson :: TypeExpr.listToJson tys

end

def TypeRecord.toJson (record : TypeRecord) : Json :=
  object [("key", ofUInt64 record.key), ("ty", record.ty.toJson)]

def conventionToJson : CallingConvention → Json
  | .other number => choice "Other" (ofUInt32 number)
  | convention => ofText convention.name

def InstructionFields.toFields (fields : InstructionFields) : List (String × Json) :=
  [("operands", ofKeys fields.operands),
   ("predicate", ofOption ofUInt32 fields.predicate),
   ("in_bounds", .bool fields.inBounds),
   ("indices", ofList ofUInt32 fields.indices),
   ("volatile", .bool fields.isVolatile),
   ("align", ofUInt32 fields.align),
   ("addr_space", ofUInt32 fields.addrSpace),
   ("calling_convention", conventionToJson fields.callingConvention),
   ("tail_call", .bool fields.tailCall),
   ("struct_return", .bool fields.structReturn)]

def ExprFields.toJson (fields : ExprFields) : Json :=
  object (("opcode", ofText fields.opcode.name) :: fields.instruction.toFields)

def ConstantFields.toJson (format : Double.Format) (fields : ConstantFields) : Json :=
  object
    [("operands", ofKeys fields.operands),
     ("int_value", ofOption (fun n => ofInt n.toInt) fields.intValue),
     ("float_value", ofOption (ofDouble format) fields.floatValue),
     ("string_value", ofOption ofText fields.stringValue),
     ("expr", ofOption ExprFields.toJson fields.expr)]

def ArgumentFields.toJson (fields : ArgumentFields) : Json :=
  object
    [("sret", .bool fields.sret), ("byval", .bool fields.byval), ("nest", .bool fields.nest),
     ("noalias", .bool fields.noAlias), ("nocapture", .bool fields.noCapture)]

def BlockFields.toJson (fields : BlockFields) : Json :=
  object [("instructions", ofKeys fields.instructions)]

def GlobalFields.toJson (fields : GlobalFields) : Json :=
  object
    [("external", .bool fields.external), ("align", ofUInt32 fields.align),
     ("visibility", ofText fields.visibility.name), ("linkage", ofText fields.linkage.name),
     ("section", ofOption ofText fields.sectionName), ("thread_local", .bool fields.threadLocal),
     ("constant", .bool fields.constant), ("initializer", ofOption ofUInt64 fields.initializer)]

def AliasFields.toJson (fields : AliasFields) : Json :=
  object
    [("visibility", ofText fields.visibility.name), ("linkage", ofText fields.linkage.name),
     ("aliasee", ofUInt64 fields.aliasee)]

def FunctionFields.toJson (fields : FunctionFields) : Json :=
  object
    [("external", .bool fields.external), ("align", ofUInt32 fields.align),
     ("visibility", ofText fields.visibility.name), ("linkage", ofText fields.linkage.name),
     ("section", ofOption ofText fields.sectionName),
     ("calling_convention", conventionToJson fields.callingConvention),
     ("gc", ofOption ofText fields.gc), ("arguments", ofKeys fields.arguments),
     ("blocks", ofKeys fields.blocks), ("vararg", .bool fields.vararg)]

def AsmFields.toJson (fields : AsmFields) : Json :=
  object
    [("asm", ofText fields.asm), ("constraints", ofText fields.constraints),
     ("side_effects", .bool fields.sideEffects)]

def Payload.toJson (format : Double.Format) : Payload → Json
  | .none => ofText "none"
  | .instruction fields => choice "instruction" (object fields.toFields)
  | .constant fields => choice "constant" (fields.toJson format)
  | .argument fields => choice "argument" fields.toJson
  | .block fields => choice "block" fields.toJson
  | .global fields => choice "global" fields.toJson
  | .globalAlias fields => choice "alias" fields.toJson
  | .function fields => choice "function" fields.toJson
  | .inlineAsm fields => choice "inline_asm" fields.toJson

def Location.toJson (location : Location) : Json :=
  object
    [("file", ofText location.file), ("line", ofUInt32 location.line),
     ("column", ofUInt32 location.column)]

def ValueRecord.toJson (format : Double.Format) (record : ValueRecord) : Json :=
  object
    [("key", ofUInt64 record.key), ("tag", ofText record.tag.name),
     ("name", ofOption ofText record.name), ("ty", ofUInt64 record.ty),
     ("location", ofOption Location.toJson record.location),
     ("payload", record.payload.toJson format)]

def toJson (format : Double.Format) (table : Table) : Json :=
  object
    [("identifier", ofText table.identifier), ("data_layout", ofText table.dataLayout),
     ("target_triple", ofText table.targetTriple), ("inline_asm", ofText table.inlineAsm),
     ("error", ofOption ofText table.error), ("little_endian", .bool table.littleEndian),
     ("pointer_size", ofUInt32 table.pointerSize), ("types", ofList TypeRecord.toJson table.types),
     ("values", ofList (ValueRecord.toJson format) table.values), ("globals", ofKeys table.globals),
     ("aliases", ofKeys table.aliases), ("functions", ofKeys table.functions)]

def printWith (format : Double.Format) (table : Table) : String := (table.toJson format).print

/-- The text of a table. -/
def print (table : Table) : String := table.printWith numberFormat

end FlowIR.Table
