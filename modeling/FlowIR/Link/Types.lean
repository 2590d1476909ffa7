import FlowIR.Link.Error
import Std.Data.ExtTreeMap

/-!
# Linking types

The records of a table are numbered first, in their order. A type inside of another one gets the
next number when it is met, before its own components do.
-/
namespace FlowIR.Link

open Table (TypeExpr TypeKey TypeRecord)

/-- The types that are numbered so far. A type is defined after its components. -/
structure TypeArena where
  size : Nat
  types : Std.ExtTreeMap TypeId Ty

abbrev TypeM := StateT TypeArena (Except LinkError)

abbrev TypeIds := Std.ExtTreeMap TypeKey TypeId

def lookupType (ids : TypeIds) (key : TypeKey) : Except LinkError TypeId :=
  match ids[key]? with
  | some id => .ok id
  | none => .error (.unknownType key)

def reserveType : TypeM TypeId := modifyGet fun arena =>
  (arena.size, { arena with size := arena.size + 1 })

def defineType (id : TypeId) (ty : Ty) : TypeM Unit := modify fun arena =>
  { arena with types := arena.types.insert id ty }

/-- The number of a component. The innermost of the types around it stands first. -/
def component (ids : TypeIds) (enclosing : List TypeId) (expr : TypeExpr)
    (layer : List TypeId → TypeM Ty) : TypeM TypeId :=
  match expr with
  | .ref key => lookupType ids key
  | .upref level =>
    match enclosing[level.toNat]? with
    | some id => return id
    | none => throw (.unresolvedUpref level)
  | _ => do
    let id ← reserveType
    defineType id (← layer (id :: enclosing))
    return id

mutual

/-- The outermost layer of a type whose number stands first among the enclosing ones. A reference
has no layer, it is resolved where it stands. -/
def typeLayer (ids : TypeIds) (enclosing : List TypeId) : TypeExpr → TypeM Ty
  | .void => return .void
  | .label => return .label
  | .metadata => return .metadata
  | .integer width => return .integer width
  | .float kind => return .float kind
  | .opaqueType name => return .opaqueType name
  | .pointer pointee addrSpace => do
    return .pointer (← component ids enclosing pointee (typeLayer ids · pointee)) addrSpace
  | .array len elem => do
    return .array len (← component ids enclosing elem (typeLayer ids · elem))
  | .vector len elem => do
    return .vector len (← component ids enclosing elem (typeLayer ids · elem))
  | .function ret params vararg => do
    let ret ← component ids enclosing ret (typeLayer ids · ret)
    return .function ret (← typeLayers ids enclosing params) vararg
  | .struct fields packed => do
    return .struct (← typeLayers ids enclosing fields) packed
  | .named name inner => do
    return .named name (← component ids enclosing inner (typeLayer ids · inner))
  | .ref key => throw (.malformedType key)
  | .upref level => throw (.unresolvedUpref level)

def typeLayers (ids : TypeIds) (enclosing : List TypeId) : List TypeExpr → TypeM (List TypeId)
  | [] => return []
  | expr :: exprs => do
    let id ← component ids enclosing expr (typeLayer ids · expr)
    return id :: (← typeLayers ids enclosing exprs)

end

/-- Numbers the records in their order. -/
def numberTypes (records : List TypeRecord) : Except LinkError TypeIds :=
  records.zipIdx.foldlM (fun ids (record, id) =>
    if record.key ∈ ids then .error (.duplicateType record.key)
    else .ok (ids.insert record.key id)) ∅

/-- A record does not only refer to another type. -/
def linkTypeRecord (ids : TypeIds) (record : TypeRecord) (id : TypeId) : TypeM Unit :=
  match record.ty with
  | .ref _ => throw (.malformedType record.key)
  | .upref _ => throw (.malformedType record.key)
  | ty => do defineType id (← typeLayer ids [id] ty)

/-- All types of the arena in the order of their numbers. -/
def TypeArena.toList (arena : TypeArena) : Except LinkError (List Ty) :=
  (List.range arena.size).mapM fun id =>
    match arena.types[id]? with
    | some ty => .ok ty
    | none => .error (.undefinedType id)

/-- The numbers of the records, and all types in the order of their numbers. -/
def linkTypes (records : List TypeRecord) : Except LinkError (TypeIds × List Ty) := do
  let ids ← numberTypes records
  let linkAll : TypeM Unit := records.zipIdx.forM fun (record, id) => linkTypeRecord ids record id
  let (_, arena) ← linkAll.run { size := records.length, types := ∅ }
  return (ids, ← arena.toList)

end FlowIR.Link
