import FlowIR.Link.Types
import FlowIR.Module.Basic

/-!
# The state of linking

Values get their numbers in the order of their headers. The content of a value may come later than
its number, so that values can refer to each other in any order.
-/
namespace FlowIR.Link

open Table (Key ValueRecord)

/-- What does not change while values are linked. -/
structure Source where
  records : Std.ExtTreeMap Key ValueRecord
  typeIds : TypeIds

structure State where
  headers : List Header := []
  contents : Std.ExtTreeMap ValueId Content := ∅
  /-- The numbers of the records that have one. -/
  ids : Std.ExtTreeMap Key ValueId := ∅
  owners : Std.ExtTreeMap ValueId ValueId := ∅

abbrev LinkM := StateT State (Except LinkError)

/-- The records by key. A key belongs to one record only. -/
def recordsByKey (records : List ValueRecord) : Except LinkError (Std.ExtTreeMap Key ValueRecord) :=
  records.foldlM (fun byKey record =>
    if record.key ∈ byKey then .error (.duplicateKey record.key)
    else .ok (byKey.insert record.key record)) ∅

def Source.record (source : Source) (key : Key) : Except LinkError ValueRecord :=
  match source.records[key]? with
  | some record => .ok record
  | none => .error (.unknownValue key)

def unexpectedPayload (record : ValueRecord) : LinkError :=
  .unexpectedPayload record.key record.tag

/-- Gives the next number to a record. -/
def allocate (source : Source) (record : ValueRecord) : LinkM ValueId := do
  let ty ← lookupType source.typeIds record.ty
  let header : Header := { name := record.name, ty, location := record.location }
  modifyGet fun state =>
    let id := state.headers.length
    (id, { state with
      headers := state.headers ++ [header]
      ids := state.ids.insert record.key id })

def define (id : ValueId) (content : Content) : LinkM Unit :=
  modify fun state => { state with contents := state.contents.insert id content }

def setOwner (id owner : ValueId) : LinkM Unit :=
  modify fun state => { state with owners := state.owners.insert id owner }

/-- The number of a record that has one. -/
def idOf (key : Key) : LinkM ValueId := do
  match (← get).ids[key]? with
  | some id => return id
  | none => throw (.knotTyingFailure key)

end FlowIR.Link
