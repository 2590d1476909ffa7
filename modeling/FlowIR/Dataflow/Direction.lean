import FlowIR.Graph.Basic

/-!
# The direction of flow

Facts flow along the edges of a graph or against them.
-/
namespace FlowIR

inductive Direction where
  | forward
  | backward
  deriving DecidableEq, Repr

namespace Direction

variable {N E : Type}

/-- The edges through which facts flow into a node, with their other ends. -/
def incoming (direction : Direction) (graph : Graph N E) (id : Nat) : List (Nat × E) :=
  match direction with
  | forward => graph.predecessors id
  | backward => graph.successors id

/-- The nodes into which facts flow from a node. -/
def dependents (direction : Direction) (graph : Graph N E) (id : Nat) : List Nat :=
  match direction with
  | forward => graph.succIds id
  | backward => graph.predIds id

/-- The nodes into which no facts flow. -/
def boundary (direction : Direction) (graph : Graph N E) : List Nat :=
  graph.ids.filter fun id => (direction.incoming graph id).isEmpty

/-- The graph whose edges point where the facts flow. -/
def orient (direction : Direction) (graph : Graph N E) : Graph N E :=
  match direction with
  | forward => graph
  | backward => graph.reverse

end Direction

end FlowIR
