import FlowIR.Dataflow.Direction
import FlowIR.Graph.Traversal

/-!
# Dominator forests

A node dominates another one if every path from the roots to the other one goes through it. The
forest keeps the closest strict dominator of every node that the roots reach. It is found on
postorder numbers: the roots hang from a virtual node with the number after all others, the parent
of every other node is the closest common ancestor of the predecessors that already have a parent,
and this is repeated until no parent changes. A parent only ever climbs, so the square of the number
of nodes bounds the repetitions.
-/
namespace FlowIR

/-- Roots have no immediate dominator. -/
structure DominatorForest where
  parents : Std.ExtTreeMap Nat (Option Nat)
  deriving DecidableEq

namespace DominatorForest

variable {N E : Type}

/-! ### Construction on postorder numbers -/

/-- Two fingers climb from two numbers until they meet, the smaller one first. -/
def commonAncestor (parents : Std.ExtTreeMap Nat Nat) (root a b : Nat) : Nat :=
  if a = b then a
  else if a < b then
    match parents[a]? with
    | none => b
    | some parent =>
      if _climbs : a < parent ∧ parent ≤ root then commonAncestor parents root parent b else b
  else
    match parents[b]? with
    | none => a
    | some parent =>
      if _climbs : b < parent ∧ parent ≤ root then commonAncestor parents root a parent else a
termination_by (root - a) + (root - b)
decreasing_by all_goals omega

/-- The nodes in postorder, and the number of each. -/
structure Numbering where
  order : List Nat
  number : Std.ExtTreeMap Nat Nat

def Numbering.ofOrder (order : List Nat) : Numbering :=
  { order, number := .ofList order.zipIdx }

/-- The number of the virtual root. -/
def Numbering.virtualRoot (numbering : Numbering) : Nat := numbering.order.length

def initialParents (numbering : Numbering) (roots : List Nat) : Std.ExtTreeMap Nat Nat :=
  let virtualRoot := numbering.virtualRoot
  (roots.filterMap (numbering.number[·]?)).foldl
    (fun parents root => parents.insert root virtualRoot)
    ((∅ : Std.ExtTreeMap Nat Nat).insert virtualRoot virtualRoot)

/-- The numbers of the predecessors that already have a parent. -/
def placedPreds (graph : Graph N E) (numbering : Numbering) (parents : Std.ExtTreeMap Nat Nat)
    (id : Nat) : List Nat :=
  ((graph.predIds id).filterMap (numbering.number[·]?)).filter (· ∈ parents)

/-- Moves one node below the closest common ancestor of its placed predecessors. -/
def refine (graph : Graph N E) (roots : List Nat) (numbering : Numbering)
    (parents : Std.ExtTreeMap Nat Nat) (id : Nat) : Std.ExtTreeMap Nat Nat :=
  if id ∈ roots then parents
  else
    match numbering.number[id]?, placedPreds graph numbering parents id with
    | some number, first :: rest =>
      parents.insert number (rest.foldl (commonAncestor parents numbering.virtualRoot) first)
    | _, _ => parents

/-- One refinement of every node in reverse postorder. -/
def pass (graph : Graph N E) (roots : List Nat) (numbering : Numbering)
    (parents : Std.ExtTreeMap Nat Nat) : Std.ExtTreeMap Nat Nat :=
  numbering.order.reverse.foldl (refine graph roots numbering) parents

/-- Passes until nothing changes. -/
def close (graph : Graph N E) (roots : List Nat) (numbering : Numbering) :
    Nat → Std.ExtTreeMap Nat Nat → Std.ExtTreeMap Nat Nat
  | 0, parents => parents
  | budget + 1, parents =>
    let next := pass graph roots numbering parents
    if next = parents then parents else close graph roots numbering budget next

def passBudget (numbering : Numbering) : Nat :=
  (numbering.virtualRoot + 1) * (numbering.virtualRoot + 2)

/-- The entry of a node with a number. -/
def parentEntry? (numbering : Numbering) (parents : Std.ExtTreeMap Nat Nat) (id number : Nat) :
    Option (Nat × Option Nat) :=
  parents[number]?.map fun parent => (id, numbering.order[parent]?)

/-- The dominators of the nodes that the roots reach. Roots outside of the graph do not count. -/
def ofRoots (graph : Graph N E) (roots : List Nat) : DominatorForest :=
  let numbering := Numbering.ofOrder (graph.postorder roots)
  let parents := close graph roots numbering (passBudget numbering) (initialParents numbering roots)
  { parents := .ofList (numbering.order.zipIdx.filterMap fun (id, number) =>
      parentEntry? numbering parents id number) }

/-- Dominators from the nodes without predecessors. -/
def forward (graph : Graph N E) : DominatorForest :=
  ofRoots graph (Direction.boundary .forward graph)

/-- A node postdominates another one if every path from the other one to an exit goes through it.
The exits are the nodes without successors, and several of them may give several trees. -/
def backward (graph : Graph N E) : DominatorForest :=
  ofRoots graph.reverse (Direction.boundary .backward graph)

/-! ### Questions -/

instance : Membership Nat DominatorForest := ⟨fun forest id => id ∈ forest.parents⟩

instance (id : Nat) (forest : DominatorForest) : Decidable (id ∈ forest) :=
  inferInstanceAs (Decidable (id ∈ forest.parents))

/-- Nothing for roots and for nodes outside of the forest. -/
def immediateDominator? (forest : DominatorForest) (id : Nat) : Option Nat :=
  (forest.parents[id]?).join

def roots (forest : DominatorForest) : List Nat :=
  (forest.parents.toList.filter fun (_, parent) => parent.isNone).map Prod.fst

/-- The node and its ancestors, at most so many of them. -/
def climb (forest : DominatorForest) : Nat → Nat → List Nat
  | 0, _ => []
  | steps + 1, id =>
    id :: match forest.immediateDominator? id with
      | none => []
      | some parent => forest.climb steps parent

/-- The way from a node of the forest up to its root. -/
def ancestors (forest : DominatorForest) (id : Nat) : List Nat :=
  if id ∈ forest then forest.climb forest.parents.size id else []

def dominates (forest : DominatorForest) (x y : Nat) : Bool := x ∈ forest.ancestors y

/-- Nothing if the nodes are in different trees. -/
def nearestCommonDominator? (forest : DominatorForest) (m n : Nat) : Option Nat :=
  (forest.ancestors n).find? (· ∈ forest.ancestors m)

end DominatorForest

end FlowIR
