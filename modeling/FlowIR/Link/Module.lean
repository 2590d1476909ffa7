import FlowIR.Link.Contents
import FlowIR.Table.Decode

/-!
# Linking a table

A table becomes a module if all its references lead somewhere, all its records say what their tags
promise, and no constant contains itself.
-/
namespace FlowIR

namespace Link

/-- All values in the order of their numbers. -/
def State.values (state : State) : Except LinkError (List Value) :=
  state.headers.zipIdx.mapM fun (header, id) =>
    match state.contents[id]? with
    | some content => .ok { id, header, content }
    | none => .error (.undefinedValue id)

def linkParts (source : Source) (types : List Ty) (table : Table) : LinkM Module := do
  registerAll source table
  linkContents source table
  let state ← get
  let values ← state.values
  return {
    identifier := table.identifier, dataLayout := table.dataLayout
    targetTriple := table.targetTriple, inlineAsm := table.inlineAsm
    littleEndian := table.littleEndian, pointerSize := table.pointerSize
    globals := ← table.globals.mapM idOf
    aliases := ← table.aliases.mapM idOf
    functions := ← table.functions.mapM idOf
    values, types, owners := state.owners }

end Link

open Link in
def Table.link (table : Table) : Except LinkError Module := do
  match table.error with
  | some message => throw (.reader message)
  | none =>
    let records ← recordsByKey table.values
    let (typeIds, types) ← linkTypes table.types
    (linkParts { records, typeIds } types table).run' {}

/-- The module of the text of a table. -/
def Module.parse (text : String) : Except LinkError Module :=
  match Table.parse? text with
  | some table => table.link
  | none => .error .unreadable

end FlowIR
