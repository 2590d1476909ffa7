import FlowIR.Link.Operands
import FlowIR.Link.Registration

/-!
# Filling in contents

Once the parts of a module have their numbers, their contents are linked in the same order.
Constants join the module on the way.
-/
namespace FlowIR.Link

open Table (Key ValueRecord ArgumentFields InstructionFields)

def linkGlobal (source : Source) (key : Key) : LinkM Unit := do
  let record ← source.record key
  match record.payload with
  | .global fields =>
    let initializer ← fields.initializer.mapM (operand source)
    define (← idOf key) (.globalVariable
      { external := fields.external, align := fields.align, linkage := fields.linkage
        visibility := fields.visibility, sectionName := fields.sectionName
        threadLocal := fields.threadLocal, constant := fields.constant, initializer })
  | _ => throw (unexpectedPayload record)

def linkAlias (source : Source) (key : Key) : LinkM Unit := do
  let record ← source.record key
  match record.payload with
  | .globalAlias fields =>
    let aliasee ← operand source fields.aliasee
    define (← idOf key) (.globalAlias
      { linkage := fields.linkage, visibility := fields.visibility, aliasee })
  | _ => throw (unexpectedPayload record)

def argumentFields (record : ValueRecord) : Except LinkError ArgumentFields :=
  match record.payload with
  | .argument fields => .ok fields
  | .none => .ok {}
  | _ => .error (unexpectedPayload record)

def linkArgument (source : Source) (key : Key) : LinkM Unit := do
  let fields ← argumentFields (← source.record key)
  define (← idOf key) (.argument fields)

def instructionFields (record : ValueRecord) : Except LinkError InstructionFields :=
  match record.payload with
  | .instruction fields => .ok fields
  | .none => .ok {}
  | _ => .error (unexpectedPayload record)

/-- An instruction of a function with these blocks. -/
def linkBodyInstruction (source : Source) (blocks : List ValueId) (key : Key) : LinkM Unit := do
  let record ← source.record key
  let fields ← instructionFields record
  let instruction ← linkInstruction (operand source) record.tag fields
  instruction.checkTargets blocks record.tag
  define (← idOf key) (.instruction instruction)

def linkBlock (source : Source) (blocks : List ValueId) (key : Key) : LinkM Unit := do
  let fields ← blockFields source key
  fields.instructions.forM (linkBodyInstruction source blocks)
  let instructions ← fields.instructions.mapM idOf
  define (← idOf key) (.basicBlock { instructions })

def linkFunction (source : Source) (key : Key) : LinkM Unit := do
  let fields ← functionFields source key
  fields.arguments.forM (linkArgument source)
  let blocks ← fields.blocks.mapM idOf
  fields.blocks.forM (linkBlock source blocks)
  let arguments ← fields.arguments.mapM idOf
  define (← idOf key) (.function
    { external := fields.external, align := fields.align, linkage := fields.linkage
      visibility := fields.visibility, sectionName := fields.sectionName
      callingConvention := fields.callingConvention, gc := fields.gc
      arguments, blocks, vararg := fields.vararg })

def linkContents (source : Source) (table : Table) : LinkM Unit := do
  table.globals.forM (linkGlobal source)
  table.aliases.forM (linkAlias source)
  table.functions.forM (linkFunction source)

end FlowIR.Link
