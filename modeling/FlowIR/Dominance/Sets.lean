import FlowIR.Dataflow.BitSet
import FlowIR.Dataflow.Problem

/-!
# Dominator sets

The dominators of all nodes as the solution of a dataflow problem over bit sets.
-/
namespace FlowIR

variable {N E : Type}

/-- One more than the greatest node. -/
def Graph.idBound (graph : Graph N E) : Nat :=
  match graph.ids.max? with
  | none => 0
  | some greatest => greatest + 1

/-- Nothing flows into the entry and into nodes without predecessors. -/
def dominatorProblem (graph : Graph N E) (entry : Nat) : Problem N E BitSet :=
  let size := graph.idBound
  { graph, direction := .forward, domain := BitSet.domain size, initial := BitSet.full size
    transfer := fun before id _ edges =>
      (if id = entry ∨ edges.isEmpty then BitSet.empty size else before).insert id }

end FlowIR
