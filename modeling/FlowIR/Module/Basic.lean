import FlowIR.Double.Basic
import FlowIR.Instruction.Basic
import FlowIR.Table.Basic
import FlowIR.Ty.Equality
import Std.Data.ExtTreeMap

/-!
# Linked modules

A module owns its values and types. They are numbered in the order in which they were linked, and
refer to each other by number.
-/
namespace FlowIR

structure FunctionInfo where
  external : Bool
  align : UInt32
  linkage : Linkage
  visibility : Visibility
  sectionName : Option String
  callingConvention : CallingConvention
  gc : Option String
  arguments : List ValueId
  /-- A declaration has no blocks. -/
  blocks : List ValueId
  vararg : Bool
  deriving DecidableEq, Repr

def FunctionInfo.entryBlock? (function : FunctionInfo) : Option ValueId := function.blocks.head?

def FunctionInfo.isDeclaration (function : FunctionInfo) : Bool := function.blocks.isEmpty

structure GlobalInfo where
  external : Bool
  align : UInt32
  linkage : Linkage
  visibility : Visibility
  sectionName : Option String
  threadLocal : Bool
  constant : Bool
  initializer : Option ValueId
  deriving DecidableEq, Repr

structure AliasInfo where
  linkage : Linkage
  visibility : Visibility
  aliasee : ValueId
  deriving DecidableEq, Repr

structure BlockInfo where
  instructions : List ValueId
  deriving DecidableEq, Repr

def BlockInfo.first? (block : BlockInfo) : Option ValueId := block.instructions.head?

/-- The last instruction. That it ends a block is not checked. -/
def BlockInfo.terminator? (block : BlockInfo) : Option ValueId := block.instructions.getLast?

inductive Constant where
  | aggregateZero
  | pointerNull
  | undef
  | int (value : Int64)
  | float (value : Double)
  | string (text : String)
  | array (elements : List ValueId)
  | struct (elements : List ValueId)
  | vector (elements : List ValueId)
  | blockAddress (function block : ValueId)
  | expr (instruction : Instruction)
  deriving DecidableEq, Repr

inductive Content where
  | function (info : FunctionInfo)
  | globalVariable (info : GlobalInfo)
  | globalAlias (info : AliasInfo)
  | argument (attributes : Table.ArgumentFields)
  | basicBlock (info : BlockInfo)
  | inlineAsm (fields : Table.AsmFields)
  | constant (constant : Constant)
  | instruction (instruction : Instruction)
  deriving DecidableEq, Repr

/-- What every value has, whatever its content. -/
structure Header where
  name : Option String
  ty : TypeId
  location : Option Table.Location
  deriving DecidableEq, Repr

structure Value where
  id : ValueId
  header : Header
  content : Content
  deriving DecidableEq, Repr

def Content.isGlobal : Content → Bool
  | .function _ | .globalVariable _ | .globalAlias _ => true
  | _ => false

structure Module where
  identifier : String
  dataLayout : String
  targetTriple : String
  inlineAsm : String
  littleEndian : Bool
  pointerSize : UInt32
  globals : List ValueId
  aliases : List ValueId
  functions : List ValueId
  values : List Value
  types : List Ty
  /-- The block of an instruction, and the function of a block or an argument. -/
  owners : Std.ExtTreeMap ValueId ValueId

namespace Module

def value? (module : Module) (id : ValueId) : Option Value := module.values[id]?

def content? (module : Module) (id : ValueId) : Option Content :=
  (module.value? id).map Value.content

def function? (module : Module) (id : ValueId) : Option FunctionInfo :=
  match module.content? id with
  | some (.function info) => some info
  | _ => none

def block? (module : Module) (id : ValueId) : Option BlockInfo :=
  match module.content? id with
  | some (.basicBlock info) => some info
  | _ => none

def instruction? (module : Module) (id : ValueId) : Option Instruction :=
  match module.content? id with
  | some (.instruction instruction) => some instruction
  | _ => none

def typeOf? (module : Module) (id : ValueId) : Option Ty :=
  (module.value? id).bind fun value => module.types[value.header.ty]?

/-- The first function of this name. -/
def functionByName? (module : Module) (name : String) : Option ValueId :=
  module.functions.find? fun id => ((module.value? id).bind (·.header.name)) = some name

/-- The functions with a body. -/
def definedFunctions (module : Module) : List ValueId :=
  module.functions.filter fun id => (module.function? id).any fun function =>
    !function.isDeclaration

/-- The block of an instruction. -/
def blockOf? (module : Module) (id : ValueId) : Option ValueId :=
  (module.instruction? id).bind fun _ => module.owners[id]?

/-- The function of a block, of an argument, or of an instruction. -/
def functionOf? (module : Module) (id : ValueId) : Option ValueId := do
  let owner ← module.owners[id]?
  if (module.function? owner).isSome then some owner else module.owners[owner]?

def typesEqual? (module : Module) (a b : TypeId) : Option Bool := Ty.equal? module.types a b

/-- For every type, the types that are equal to it. -/
def typeClasses (module : Module) : List (List TypeId) :=
  let ids := List.range module.types.length
  ids.map fun a => ids.filter fun b => module.typesEqual? a b = some true

end Module

end FlowIR
