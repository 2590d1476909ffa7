import FlowIR.Dominance.Forest

/-!
# Control dependence

A node depends on another one if the other one has an edge after which the node is always reached
and an edge after which it may be missed. For an edge to a node that does not postdominate its
source, these are the postdominators of the target up to the first one that the source shares.
-/
namespace FlowIR

variable {N E : Type}

/-- The nodes that an edge between two nodes makes dependent on its source. -/
def dependentsOfEdge (postdominators : DominatorForest) (source target : Nat) : List Nat :=
  if postdominators.dominates target source then []
  else
    let shared := postdominators.nearestCommonDominator? source target
    (postdominators.ancestors target).takeWhile fun id => some id ≠ shared

/-- Pairs of a dependent node and the node it depends on. -/
def dependencePairs (graph : Graph N E) (postdominators : DominatorForest) : List (Nat × Nat) :=
  graph.edges.flatMap fun edge =>
    (dependentsOfEdge postdominators edge.source edge.target).map (·, edge.source)

def addDependence (result : Graph N Unit) (pair : Nat × Nat) :
    Except Graph.MissingEndpoint (Graph N Unit) :=
  if (result.edgeLabels pair.1 pair.2).isEmpty then result.insertEdge pair.1 pair.2 ()
  else .ok result

/-- The nodes of the graph, each with one edge to every node it depends on. -/
def controlDependence (graph : Graph N E) (postdominators : DominatorForest) :
    Except Graph.MissingEndpoint (Graph N Unit) :=
  let isolated : Graph N Unit :=
    graph.nodes.foldl (fun result (id, label) => result.insertNode id label) ∅
  (dependencePairs graph postdominators).foldlM addDependence isolated

end FlowIR
