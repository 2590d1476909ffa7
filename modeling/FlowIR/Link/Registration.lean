import FlowIR.Link.State

/-!
# Numbering the parts of a module

Everything that the lists of a module lead to gets its number first: globals, aliases and functions,
then the arguments, blocks and instructions of each function. After that every value but the
constants can be referred to, wherever it stands.
-/
namespace FlowIR.Link

open Table (Key ValueRecord FunctionFields BlockFields)

/-- Gives a number to a record that stands in one of the lists. -/
def register (source : Source) (expected : Tag → Bool) (key : Key) : LinkM ValueId := do
  let record ← source.record key
  if !expected record.tag then throw (unexpectedPayload record)
  else if key ∈ (← get).ids then throw (.duplicateKey key)
  else allocate source record

def functionFields (source : Source) (key : Key) : Except LinkError FunctionFields := do
  let record ← source.record key
  match record.payload with
  | .function fields => return fields
  | _ => throw (unexpectedPayload record)

def blockFields (source : Source) (key : Key) : Except LinkError BlockFields := do
  let record ← source.record key
  match record.payload with
  | .block fields => return fields
  | _ => throw (unexpectedPayload record)

def registerPart (source : Source) (expected : Tag → Bool) (owner : ValueId) (key : Key) :
    LinkM ValueId := do
  let id ← register source expected key
  setOwner id owner
  return id

def registerBlock (source : Source) (function : ValueId) (key : Key) : LinkM Unit := do
  let block ← registerPart source (· = .basicBlock) function key
  let fields ← blockFields source key
  fields.instructions.forM fun key => discard (registerPart source Tag.isInstruction block key)

def registerBody (source : Source) (key : Key) : LinkM Unit := do
  let function ← idOf key
  let fields ← functionFields source key
  fields.arguments.forM fun key => discard (registerPart source (· = .argument) function key)
  fields.blocks.forM (registerBlock source function)

def registerAll (source : Source) (table : Table) : LinkM Unit := do
  table.globals.forM fun key => discard (register source (· = .globalVariable) key)
  table.aliases.forM fun key => discard (register source (· = .globalAlias) key)
  table.functions.forM fun key => discard (register source (· = .function) key)
  table.functions.forM (registerBody source)

end FlowIR.Link
