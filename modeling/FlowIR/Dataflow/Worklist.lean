import FlowIR.Dataflow.Direction
import FlowIR.Graph.Traversal

/-!
# Worklists in reverse postorder

A worklist hands out the queued node that comes first in reverse postorder, so in an acyclic region
every node is handed out after everything that flows into it.
-/
namespace FlowIR

/-- Each node is queued at most once. -/
structure Worklist where
  order : List Nat
  queued : Std.ExtTreeSet Nat

namespace Worklist

variable {N E : Type}

/-- Reverse postorder from the boundary. What cannot be reached from there, such as an endless loop,
is traversed after it, by increasing number. -/
def flowOrder (direction : Direction) (graph : Graph N E) : List Nat :=
  let oriented := direction.orient graph
  (oriented.postorder (Direction.boundary .forward oriented ++ oriented.ids)).reverse

/-- The worklist with nothing queued. -/
def ofGraph (direction : Direction) (graph : Graph N E) : Worklist :=
  { order := flowOrder direction graph, queued := ∅ }

/-- Numbers outside of the graph have no rank. -/
def rank? (worklist : Worklist) (id : Nat) : Option Nat := worklist.order.idxOf? id

def isEmpty (worklist : Worklist) : Bool := worklist.queued.isEmpty

def push (worklist : Worklist) (id : Nat) : Worklist :=
  { worklist with queued := worklist.queued.insert id }

def pushAll (worklist : Worklist) (ids : List Nat) : Worklist := ids.foldl push worklist

/-- The queued node of least rank. Numbers without rank come last. -/
def first? (worklist : Worklist) : Option Nat :=
  worklist.order.find? (· ∈ worklist.queued) <|> worklist.queued.min?

def erase (worklist : Worklist) (id : Nat) : Worklist :=
  { worklist with queued := worklist.queued.erase id }

def pop? (worklist : Worklist) : Option (Nat × Worklist) :=
  worklist.first?.map fun id => (id, worklist.erase id)

end Worklist

end FlowIR
