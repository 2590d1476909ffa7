import FlowIR.Dataflow.MeetDomain
import FlowIR.Graph.Traversal

/-!
# Escape graphs

An escape graph says which memory may hold pointers to which other memory. Nodes are named by the
values that stand for the memory.
-/
namespace FlowIR

inductive MemoryKind where
  | parameter
  | global
  /-- Allocated by the function itself. -/
  | object
  deriving DecidableEq, Repr

/-- Where a pointer was stored. -/
inductive StoreKind where
  /-- Into memory that the function allocated. -/
  | internal
  /-- Into memory that can be reached from outside. -/
  | external
  deriving DecidableEq, Repr

def MemoryKind.storeKind : MemoryKind → StoreKind
  | object => .internal
  | _ => .external

/-- An edge leads from memory to memory that a pointer stored in it refers to. -/
structure EscapeGraph where
  graph : Graph MemoryKind StoreKind
  /-- The calls that may have allocated a node. -/
  callSites : Std.ExtTreeMap Nat (Std.ExtTreeSet Nat)
  /-- The nodes to which a returned pointer refers. -/
  returned : Std.ExtTreeSet Nat
  deriving DecidableEq

namespace EscapeGraph

def empty : EscapeGraph := { graph := ∅, callSites := ∅, returned := ∅ }

/-- A node keeps the kind that it got first. -/
def addMemory (escape : EscapeGraph) (id : Nat) (kind : MemoryKind) : EscapeGraph :=
  if id ∈ escape.graph then escape
  else { escape with graph := escape.graph.insertNode id kind }

/-- Between two nodes there is at most one edge of a kind. -/
def addPointer (escape : EscapeGraph) (target source : Nat) (kind : StoreKind) : EscapeGraph :=
  if kind ∈ escape.graph.edgeLabels target source then escape
  else { escape with graph := escape.graph.addEdge target source kind }

def addCallSite (escape : EscapeGraph) (object call : Nat) : EscapeGraph :=
  { escape with
    callSites := escape.callSites.alter object fun calls => some ((calls.getD ∅).insert call) }

def addReturned (escape : EscapeGraph) (id : Nat) : EscapeGraph :=
  { escape with returned := escape.returned.insert id }

def addCalls (callSites : Std.ExtTreeMap Nat (Std.ExtTreeSet Nat))
    (added : Nat × Std.ExtTreeSet Nat) :
    Std.ExtTreeMap Nat (Std.ExtTreeSet Nat) :=
  callSites.alter added.1 fun calls => some (calls.getD ∅ ∪ added.2)

/-- Both graphs together. -/
def meet (a b : EscapeGraph) : EscapeGraph :=
  { graph := a.graph.merge b.graph
    callSites := b.callSites.toList.foldl addCalls a.callSites
    returned := a.returned ∪ b.returned }

def domain : MeetDomain EscapeGraph := { top := empty, meet }

/-- The nodes that can be reached from outside of the function without going through other nodes. -/
def exposed (escape : EscapeGraph) : List Nat :=
  (escape.graph.nodes.filter fun (_, kind) => kind ≠ .object).map Prod.fst ++ escape.returned.toList

def escaping (escape : EscapeGraph) : List Nat := escape.graph.preorder escape.exposed

/-- The memory outlives the function or was there before it. -/
def escapes (escape : EscapeGraph) (id : Nat) : Bool := id ∈ escape.escaping

/-- The memory that the function allocated and that escapes, by increasing number. -/
def escapingObjects (escape : EscapeGraph) : List Nat :=
  let escaping := escape.escaping
  (escape.graph.nodes.filter fun (id, kind) => kind = .object ∧ id ∈ escaping).map Prod.fst

end EscapeGraph

end FlowIR
