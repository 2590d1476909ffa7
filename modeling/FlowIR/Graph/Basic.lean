import Std.Data.ExtTreeMap
import Std.Data.ExtTreeSet

/-!
# Labelled directed multigraphs

Nodes are named by natural numbers and carry a label. Every edge is kept at both of its ends, so the
incoming and the outgoing edges of a node are read off directly. Parallel edges are kept with their
multiplicity, in the order of their insertion. Everything is listed by increasing node number.
-/
namespace FlowIR

/-- The edges on one side of a node: for each neighbour, the labels of the parallel edges. -/
abbrev Adjacency (E : Type) := Std.ExtTreeMap Nat (List E)

namespace Adjacency

variable {E : Type}

/-- One pair for each edge. -/
def edges (adjacency : Adjacency E) : List (Nat × E) :=
  adjacency.toList.flatMap fun (other, labels) => labels.map (other, ·)

def addLabel (adjacency : Adjacency E) (other : Nat) (label : E) : Adjacency E :=
  adjacency.alter other fun labels => some (labels.getD [] ++ [label])

def edgeCount (adjacency : Adjacency E) : Nat :=
  adjacency.foldr (fun _ labels total => labels.length + total) 0

end Adjacency

/-- What a graph knows about one node. -/
structure Graph.Entry (N E : Type) where
  label : N
  preds : Adjacency E
  succs : Adjacency E
  deriving DecidableEq

structure Graph (N E : Type) where
  entries : Std.ExtTreeMap Nat (Graph.Entry N E)
  deriving DecidableEq

/-- An edge with its ends. -/
structure Graph.Edge (E : Type) where
  source : Nat
  target : Nat
  label : E
  deriving DecidableEq, Repr

/-- A node taken out of its graph together with its edges. A self loop stands on both sides. -/
structure Graph.Context (N E : Type) where
  node : Nat
  label : N
  preds : List (Nat × E)
  succs : List (Nat × E)
  deriving DecidableEq, Repr

/-- An edge was asked for of which at least one end is not a node. -/
structure Graph.MissingEndpoint where
  source : Nat
  target : Nat
  deriving DecidableEq, Repr

def Graph.MissingEndpoint.message (missing : MissingEndpoint) : String :=
  s!"Edge {missing.source} -> {missing.target} has an endpoint missing from the graph."

namespace Graph

variable {N M E F : Type}

def empty : Graph N E := ⟨∅⟩

instance : EmptyCollection (Graph N E) := ⟨empty⟩

instance : Membership Nat (Graph N E) := ⟨fun graph id => id ∈ graph.entries⟩

instance (id : Nat) (graph : Graph N E) : Decidable (id ∈ graph) :=
  inferInstanceAs (Decidable (id ∈ graph.entries))

/-! ### Reading a graph -/

def isEmpty (graph : Graph N E) : Bool := graph.entries.isEmpty

def nodeCount (graph : Graph N E) : Nat := graph.entries.size

def edgeCount (graph : Graph N E) : Nat :=
  graph.entries.foldr (fun _ entry total => entry.succs.edgeCount + total) 0

def label? (graph : Graph N E) (id : Nat) : Option N :=
  graph.entries[id]?.map Entry.label

def ids (graph : Graph N E) : List Nat := graph.entries.keys

def nodes (graph : Graph N E) : List (Nat × N) :=
  graph.entries.toList.map fun (id, entry) => (id, entry.label)

def edges (graph : Graph N E) : List (Edge E) :=
  graph.entries.toList.flatMap fun (source, entry) =>
    entry.succs.edges.map fun (target, label) => { source, target, label }

/-- A node outside of the graph has no edges. -/
def succMap (graph : Graph N E) (id : Nat) : Adjacency E :=
  (graph.entries[id]?.map Entry.succs).getD ∅

def predMap (graph : Graph N E) (id : Nat) : Adjacency E :=
  (graph.entries[id]?.map Entry.preds).getD ∅

/-- The outgoing edges of a node, one pair for each edge. -/
def successors (graph : Graph N E) (id : Nat) : List (Nat × E) := (graph.succMap id).edges

/-- The incoming edges of a node, one pair for each edge. -/
def predecessors (graph : Graph N E) (id : Nat) : List (Nat × E) := (graph.predMap id).edges

/-- The distinct successors of a node. -/
def succIds (graph : Graph N E) (id : Nat) : List Nat := (graph.succMap id).keys

/-- The distinct predecessors of a node. -/
def predIds (graph : Graph N E) (id : Nat) : List Nat := (graph.predMap id).keys

/-- The labels of the parallel edges between two nodes. -/
def edgeLabels (graph : Graph N E) (source target : Nat) : List E :=
  (graph.succMap source)[target]?.getD []

/-! ### Building a graph -/

/-- A node that is already there gets the new label and keeps its edges. -/
def insertNode (graph : Graph N E) (id : Nat) (label : N) : Graph N E :=
  ⟨graph.entries.alter id fun
    | some entry => some { entry with label }
    | none => some { label, preds := ∅, succs := ∅ }⟩

/-- Records one more edge at its source, if that is a node. -/
def addOutgoing (graph : Graph N E) (source target : Nat) (label : E) : Graph N E :=
  ⟨graph.entries.modify source fun entry =>
    { entry with succs := entry.succs.addLabel target label }⟩

/-- Records one more edge at its target, if that is a node. -/
def addIncoming (graph : Graph N E) (source target : Nat) (label : E) : Graph N E :=
  ⟨graph.entries.modify target fun entry =>
    { entry with preds := entry.preds.addLabel source label }⟩

/-- Records one more edge at those of its ends that are nodes. -/
def addEdge (graph : Graph N E) (source target : Nat) (label : E) : Graph N E :=
  (graph.addOutgoing source target label).addIncoming source target label

/-- Inserts an edge into a graph that is changed in place. Both ends have to be nodes, and they are
looked for before anything is written. -/
def insertEdgeInPlace (source target : Nat) (label : E) :
    EStateM MissingEndpoint (Graph N E) Unit := do
  let graph ← get
  if source ∈ graph ∧ target ∈ graph then
    modify (·.addOutgoing source target label)
    modify (·.addIncoming source target label)
  else throw { source, target }

/-- The graph with one more edge. -/
def insertEdge (graph : Graph N E) (source target : Nat) (label : E) :
    Except MissingEndpoint (Graph N E) :=
  match (insertEdgeInPlace source target label).run graph with
  | .ok _ changed => .ok changed
  | .error missing _ => .error missing

/-- Removes every edge between two nodes. -/
def removeEdges (graph : Graph N E) (source target : Nat) : Graph N E :=
  let outgoing := graph.entries.modify source fun entry =>
    { entry with succs := entry.succs.erase target }
  ⟨outgoing.modify target fun entry => { entry with preds := entry.preds.erase source }⟩

/-- Removes the edges that lead from a node to these ones, at their targets only. -/
def eraseIncoming (graph : Graph N E) (source : Nat) (targets : List Nat) : Graph N E :=
  ⟨targets.foldl (fun entries target =>
    entries.modify target fun entry => { entry with preds := entry.preds.erase source })
      graph.entries⟩

/-- Removes the edges that lead to a node from these ones, at their sources only. -/
def eraseOutgoing (graph : Graph N E) (target : Nat) (sources : List Nat) : Graph N E :=
  ⟨sources.foldl (fun entries source =>
    entries.modify source fun entry => { entry with succs := entry.succs.erase target })
      graph.entries⟩

/-- The graph without a node and without the edges at it. The entry of the node says which other
entries know about these edges. -/
def removeNode (graph : Graph N E) (id : Nat) : Graph N E :=
  let rest : Graph N E := ⟨graph.entries.erase id⟩
  (rest.eraseIncoming id (graph.succIds id)).eraseOutgoing id (graph.predIds id)

def context? (graph : Graph N E) (id : Nat) : Option (Context N E) :=
  graph.entries[id]?.map fun entry =>
    { node := id, label := entry.label, preds := entry.preds.edges, succs := entry.succs.edges }

/-- Splits a graph into one of its nodes and the rest. -/
def decompose (graph : Graph N E) (id : Nat) : Option (Context N E × Graph N E) :=
  (graph.context? id).map fun context => (context, graph.removeNode id)

/-- The graph of the given nodes and edges. A repeated node keeps its last label. -/
def build (nodes : List (Nat × N)) (edges : List (Edge E)) :
    Except MissingEndpoint (Graph N E) :=
  let isolated := nodes.foldl (fun graph (id, label) => graph.insertNode id label) ∅
  edges.foldlM (fun graph edge => graph.insertEdge edge.source edge.target edge.label) isolated

/-! ### Derived graphs -/

def mapNodes (graph : Graph N E) (f : Nat → N → M) : Graph M E :=
  ⟨graph.entries.map fun id entry =>
    { label := f id entry.label, preds := entry.preds, succs := entry.succs }⟩

/-- Inserts the nodes and then the relabelled edges, each in the order in which they are listed. -/
def mapEdges (graph : Graph N E) (f : Nat → Nat → E → F) : Graph N F :=
  let isolated : Graph N F :=
    graph.nodes.foldl (fun result (id, label) => result.insertNode id label) ∅
  graph.edges.foldl (fun result edge =>
    result.addEdge edge.source edge.target (f edge.source edge.target edge.label)) isolated

/-- The same nodes with every edge turned around. -/
def reverse (graph : Graph N E) : Graph N E :=
  ⟨graph.entries.map fun _ entry => { entry with preds := entry.succs, succs := entry.preds }⟩

/-- A node that is inserted only if it is missing. -/
def insertMissing (graph : Graph N E) (node : Nat × N) : Graph N E :=
  if node.1 ∈ graph then graph else graph.insertNode node.1 node.2

/-- An edge that is inserted only if there is none with its label between its ends. -/
def addMissing [DecidableEq E] (graph : Graph N E) (edge : Edge E) : Graph N E :=
  if edge.label ∈ graph.edgeLabels edge.source edge.target then graph
  else graph.addEdge edge.source edge.target edge.label

/-- The union of two graphs. The left label wins at a common node, and an edge of the right graph is
added only if the result has no edge with this label between the same ends yet. -/
def merge [DecidableEq E] (left right : Graph N E) : Graph N E :=
  right.edges.foldl addMissing (right.nodes.foldl insertMissing left)

end Graph

end FlowIR
