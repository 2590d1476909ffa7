import FlowIR.Attribute
import FlowIR.Double.Shortest
import FlowIR.Tag

/-!
# Tables

A table is a flat list of records for types and values, which refer to each other by key. It is what
a reader of program files hands out: nothing in it is linked yet, and nothing has been checked.
-/
namespace FlowIR.Table

/-- The key of a value record. -/
abbrev Key := UInt64

/-- The key of a type record. -/
abbrev TypeKey := UInt64

/-- Types refer to type records by key, and to the types around them by level: level zero is the
type that directly contains the reference. -/
inductive TypeExpr where
  | void
  | label
  | metadata
  | integer (width : UInt32)
  | float (kind : FloatKind)
  | pointer (pointee : TypeExpr) (addrSpace : UInt32)
  | array (len : UInt64) (elem : TypeExpr)
  | vector (len : UInt64) (elem : TypeExpr)
  | function (ret : TypeExpr) (params : List TypeExpr) (vararg : Bool)
  | struct (fields : List TypeExpr) (packed : Bool)
  | named (name : String) (inner : TypeExpr)
  | opaqueType (name : String)
  | ref (key : TypeKey)
  | upref (level : UInt32)
  deriving BEq, Repr, Inhabited

structure TypeRecord where
  key : TypeKey
  ty : TypeExpr
  deriving BEq, Repr

structure Location where
  file : String
  line : UInt32
  column : UInt32 := 0
  deriving DecidableEq, Repr

/-- The fields of an instruction. Which of them count depends on the opcode. -/
structure InstructionFields where
  operands : List Key := []
  /-- The code of the predicate of a comparison. -/
  predicate : Option UInt32 := none
  inBounds : Bool := false
  /-- The constant indices into an aggregate. -/
  indices : List UInt32 := []
  isVolatile : Bool := false
  align : UInt32 := 0
  addrSpace : UInt32 := 0
  callingConvention : CallingConvention := .c
  tailCall : Bool := false
  structReturn : Bool := false
  deriving DecidableEq, Repr, Inhabited

structure ExprFields where
  opcode : Tag
  instruction : InstructionFields
  deriving DecidableEq, Repr

structure ConstantFields where
  /-- The elements of an aggregate, or the function and the block of a block address. -/
  operands : List Key := []
  intValue : Option Int64 := none
  floatValue : Option Double := none
  stringValue : Option String := none
  expr : Option ExprFields := none
  deriving DecidableEq, Repr, Inhabited

structure ArgumentFields where
  sret : Bool := false
  byval : Bool := false
  nest : Bool := false
  noAlias : Bool := false
  noCapture : Bool := false
  deriving DecidableEq, Repr, Inhabited

structure BlockFields where
  instructions : List Key := []
  deriving DecidableEq, Repr, Inhabited

structure GlobalFields where
  external : Bool := false
  align : UInt32 := 0
  visibility : Visibility := .standard
  linkage : Linkage := .external
  sectionName : Option String := none
  threadLocal : Bool := false
  constant : Bool := false
  initializer : Option Key := none
  deriving DecidableEq, Repr, Inhabited

structure AliasFields where
  visibility : Visibility := .standard
  linkage : Linkage := .external
  aliasee : Key
  deriving DecidableEq, Repr

structure FunctionFields where
  external : Bool := false
  align : UInt32 := 0
  visibility : Visibility := .standard
  linkage : Linkage := .external
  sectionName : Option String := none
  callingConvention : CallingConvention := .c
  gc : Option String := none
  arguments : List Key := []
  blocks : List Key := []
  vararg : Bool := false
  deriving DecidableEq, Repr, Inhabited

structure AsmFields where
  asm : String := ""
  constraints : String := ""
  sideEffects : Bool := false
  deriving DecidableEq, Repr, Inhabited

/-- What a value record says beyond its type and its name. -/
inductive Payload where
  | none
  | instruction (fields : InstructionFields)
  | constant (fields : ConstantFields)
  | argument (fields : ArgumentFields)
  | block (fields : BlockFields)
  | global (fields : GlobalFields)
  | globalAlias (fields : AliasFields)
  | function (fields : FunctionFields)
  | inlineAsm (fields : AsmFields)
  deriving DecidableEq, Repr, Inhabited

structure ValueRecord where
  key : Key
  tag : Tag
  name : Option String := none
  ty : TypeKey
  location : Option Location := none
  payload : Payload := .none
  deriving DecidableEq, Repr

end FlowIR.Table

namespace FlowIR

open Table in
structure Table where
  identifier : String := ""
  dataLayout : String := ""
  targetTriple : String := ""
  inlineAsm : String := ""
  /-- Set by the reader when it could not read its input. -/
  error : Option String := none
  littleEndian : Bool := false
  pointerSize : UInt32 := 0
  types : List TypeRecord := []
  values : List ValueRecord := []
  globals : List Key := []
  aliases : List Key := []
  functions : List Key := []
  deriving BEq, Repr, Inhabited

namespace Table

/-- Numbers from 1e-5 up to 1e16 are written positionally, and every exponent has a sign. -/
def numberLayout : Double.Layout :=
  { leastPoint := -4, greatestPoint := 16, positiveExponent := .plus, tie := .toEven }

/-- A number is written with the fewest digits, and a numeral is read as the nearest number. -/
def numberFormat : Double.Format :=
  { numeral := Double.numeral numberLayout, double? := Double.ofNumeral? }

end Table

end FlowIR
