import FlowIR.ControlFlow.Graph
import FlowIR.Escape.Graph
import FlowIR.Module.Text
import FlowIR.OpenWeight

/-!
# Escape analysis

Instructions that allocate, store or return contribute to the escape graph of their function. The
summary of a function is what has been contributed when an exit is reached.
-/
namespace FlowIR

namespace Module

def isPointer (module : Module) (id : ValueId) : Bool :=
  match module.typeOf? id with
  | some (.pointer _ _) => true
  | _ => false

end Module

/-- The pointer from which a cast or an address computation starts. -/
def Instruction.basePointer? : Instruction → Option ValueId
  | cast _ value => some value
  | getElementPtr _ base _ => some base
  | _ => none

namespace Escape

/-- The memory that a value itself stands for. -/
def memoryKind? : Content → Option MemoryKind
  | .argument _ => some .parameter
  | .globalVariable _ => some .global
  | .globalAlias _ => some .global
  | .instruction (.alloca _ _) => some .object
  | .instruction (.call _) => some .object
  | .instruction (.invoke _ _ _) => some .object
  | _ => none

/-- The value through which a value refers to its memory. -/
def base? : Content → Option ValueId
  | .instruction instruction => instruction.basePointer?
  | .constant (.expr instruction) => instruction.basePointer?
  | _ => none

/-- Follows base pointers that have not been met yet. A chain that comes back to itself refers to
nothing. -/
def pointeeFrom (module : Module) (met : List ValueId) (id : ValueId) :
    Option (ValueId × MemoryKind) :=
  if _fresh : id ∈ met then none
  else
    match _found : module.values[id]? with
    | none => none
    | some value =>
      match memoryKind? value.content with
      | some kind => some (id, kind)
      | none =>
        match base? value.content with
        | some base => pointeeFrom module (id :: met) base
        | none => none
termination_by openWeight (fun _ => 1) (· ∉ met) (List.range module.values.length)
decreasing_by
  have bound : id < module.values.length := (List.getElem?_eq_some_iff.mp _found).1
  have step := openWeight_add_le (fun _ : ValueId => 1) (· ∉ met) (· ∉ id :: met)
    (List.range module.values.length) (by simp_all) id (by simpa using bound)
    (by simpa using _fresh) (by simp)
  omega

/-- The memory to which a pointer refers, looking through casts and address computations. -/
def pointee? (module : Module) (id : ValueId) : Option (ValueId × MemoryKind) :=
  if module.isPointer id then pointeeFrom module [] id else none

/-- The escape graph after an instruction. -/
def transfer (module : Module) (before : EscapeGraph) (id : ValueId) : EscapeGraph :=
  match module.instruction? id with
  | some (.alloca _ _) => before.addMemory id .object
  | some (.call _) => allocated before
  | some (.invoke _ _ _) => allocated before
  | some (.store value address _ _ _) =>
    match pointee? module address, pointee? module value with
    | some (target, targetKind), some (source, sourceKind) =>
      ((before.addMemory target targetKind).addMemory source sourceKind).addPointer target source
        targetKind.storeKind
    | _, _ => before
  | some (.ret (some value)) =>
    match pointee? module value with
    | some (memory, kind) => (before.addMemory memory kind).addReturned memory
    | none => before
  | _ => before
where
  /-- A call that returns a pointer may have allocated memory. -/
  allocated (before : EscapeGraph) : EscapeGraph :=
    if module.isPointer id then (before.addMemory id .object).addCallSite id id else before

def problem (module : Module) (flow : FlowGraph) : Problem ValueId FlowKind EscapeGraph :=
  { graph := flow.graph, direction := .forward, domain := EscapeGraph.domain
    initial := EscapeGraph.empty
    transfer := fun before _ id _ => transfer module before id }

/-- The facts after all exits together. -/
def atExits (flow : FlowGraph) (solution : Problem.Solution EscapeGraph) :
    Except Fault EscapeGraph := do
  let facts ← flow.exits.mapM fun id =>
    match solution.outputs[id]? with
    | some fact => .ok fact
    | none => .error (Fault.missingFact id)
  return EscapeGraph.domain.meetAll facts

def summary (module : Module) (function : ValueId) : Except AnalysisError EscapeGraph := do
  let flow ← FlowGraph.ofFunction module function
  let solution ← ((problem module flow).solve Problem.defaultNodeLimit 0).mapError .didNotConverge
  (atExits flow solution).mapError .fault

/-- The summaries of all functions with a body. -/
def summaries (module : Module) : Except AnalysisError (Std.ExtTreeMap ValueId EscapeGraph) := do
  let pairs ← module.definedFunctions.mapM fun function =>
    return (function, ← summary module function)
  return Std.ExtTreeMap.ofList pairs

def reportLine? (module : Module) (function : ValueId) (escape : EscapeGraph) : Option String := do
  let names ← escape.escapingObjects.mapM module.operandName?
  return (← module.operandName? function) ++ ": escaping [" ++ Ty.commaSeparated names ++ "]\n"

/-- One line for each function with a body. -/
def report (module : Module) : Except AnalysisError String := do
  let summaries ← summaries module
  let lines ← (Fault.orOutOfRange (summaries.toList.mapM fun (function, escape) =>
    reportLine? module function escape)).mapError .fault
  return String.join lines

end Escape

end FlowIR
