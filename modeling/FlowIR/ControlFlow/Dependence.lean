import FlowIR.ControlFlow.Graph
import FlowIR.Dominance.ControlDependence

/-!
# Control dependence between instructions
-/
namespace FlowIR

/-- An edge leads from an instruction to one that it directly depends on. -/
structure DependenceGraph where
  function : ValueId
  graph : Graph ValueId Unit

namespace DependenceGraph

def ofFlow (flow : FlowGraph) : Except AnalysisError DependenceGraph :=
  match controlDependence flow.forward flow.postdominators with
  | .ok graph => .ok { function := flow.function, graph }
  | .error missing => .error (.fault (.missingEndpoint missing))

def direct (dependence : DependenceGraph) (id : ValueId) : List ValueId :=
  dependence.graph.succIds id

/-- All that an instruction depends on over any number of steps, without itself. -/
def transitive (dependence : DependenceGraph) (id : ValueId) : Except Fault (List ValueId) :=
  match dependence.graph.preorder [id] with
  | first :: rest => if first = id then .ok rest else .error (.notInDependenceGraph id)
  | [] => .error (.notInDependenceGraph id)

/-- The second instruction depends on the first one. -/
def dependsOn (dependence : DependenceGraph) (controller id : ValueId) : Except Fault Bool :=
  (dependence.transitive id).map (controller ∈ ·)

end DependenceGraph

end FlowIR
