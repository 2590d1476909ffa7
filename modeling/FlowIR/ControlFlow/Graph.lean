import FlowIR.Analysis.Error
import FlowIR.Dominance.Forest
import FlowIR.Module.Basic

/-!
# Control flow graphs

The nodes are the instructions of one function. Control goes from each instruction of a block to the
next one, and from the last one to the first instructions of the blocks it may branch to. An empty
block cannot be a target.
-/
namespace FlowIR

/-- Why control flows along an edge. -/
inductive FlowKind where
  /-- Between neighbours in a block. -/
  | fallthrough
  | unconditional
  | onTrue (condition : ValueId)
  | onFalse (condition : ValueId)
  | onCase (condition value : ValueId)
  | otherwise (condition : ValueId)
  | indirect (address : ValueId)
  | normal (invoke : ValueId)
  | unwind (invoke : ValueId)
  deriving DecidableEq, Repr

structure FlowGraph where
  function : ValueId
  /-- The label of a node is its own number. -/
  graph : Graph ValueId FlowKind
  /-- The first instruction of the first block, whatever the direction. -/
  entry : ValueId
  /-- The instructions after which control goes nowhere, whatever the direction. -/
  exits : List ValueId
  reversed : Bool

/-- The blocks to which an instruction may go, and why. -/
def Instruction.branches (id : ValueId) : Instruction → List (ValueId × FlowKind)
  | br target => [(target, .unconditional)]
  | condBr condition thenBlock elseBlock =>
    [(thenBlock, .onTrue condition), (elseBlock, .onFalse condition)]
  | switch value defaultBlock cases =>
    (defaultBlock, .otherwise value) :: cases.map fun (case, block) => (block, .onCase value case)
  | indirectBr address targets => targets.map (·, .indirect address)
  | invoke _ normalBlock unwindBlock => [(normalBlock, .normal id), (unwindBlock, .unwind id)]
  | _ => []

namespace FlowGraph

def fallthroughEdges (block : BlockInfo) : List (Graph.Edge FlowKind) :=
  (block.instructions.zip block.instructions.tail).map fun (source, target) =>
    { source, target, label := .fallthrough }

def branchEdges (module : Module) (block : BlockInfo) : List (Graph.Edge FlowKind) :=
  match block.terminator? with
  | none => []
  | some source =>
    let branches := ((module.instruction? source).map (·.branches source)).getD []
    branches.filterMap fun (target, label) => do
      let first ← (← module.block? target).first?
      return { source, target := first, label }

def ofBlocks (module : Module) (blocks : List BlockInfo) :
    Except Graph.MissingEndpoint (Graph ValueId FlowKind) :=
  Graph.build ((blocks.flatMap BlockInfo.instructions).map fun id => (id, id))
    (blocks.flatMap fun block => fallthroughEdges block ++ branchEdges module block)

def ofFunction (module : Module) (function : ValueId) : Except AnalysisError FlowGraph :=
  match module.function? function with
  | none => .error (.notAFunction function)
  | some info =>
    match (info.entryBlock?.bind module.block?).bind BlockInfo.first? with
    | none => .error (.declaration function)
    | some entry =>
      match ofBlocks module (info.blocks.filterMap module.block?) with
      | .error missing => .error (.fault (.missingEndpoint missing))
      | .ok graph =>
        let exits := graph.ids.filter fun id => (graph.succIds id).isEmpty
        .ok { function, graph, entry, exits, reversed := false }

/-- The same nodes with all edges turned around. -/
def reverse (flow : FlowGraph) : FlowGraph :=
  { flow with graph := flow.graph.reverse, reversed := !flow.reversed }

/-- Where traversals start in the current direction. -/
def roots (flow : FlowGraph) : List ValueId :=
  if flow.reversed then flow.exits else [flow.entry]

/-- The edges in the direction of control. -/
def forward (flow : FlowGraph) : Graph ValueId FlowKind :=
  if flow.reversed then flow.graph.reverse else flow.graph

/-- The edges against the direction of control. -/
def backward (flow : FlowGraph) : Graph ValueId FlowKind :=
  if flow.reversed then flow.graph else flow.graph.reverse

def dominators (flow : FlowGraph) : DominatorForest := .ofRoots flow.forward [flow.entry]

/-- Instructions that reach no exit are not in the forest. -/
def postdominators (flow : FlowGraph) : DominatorForest := .ofRoots flow.backward flow.exits

end FlowGraph

end FlowIR
