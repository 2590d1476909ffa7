import FlowIR.Dataflow.MeetDomain
import FlowIR.Dataflow.Worklist

/-!
# Dataflow problems

Every node starts with the initial fact. A visit computes the fact after a node from the meet of the
facts that flow into it, and queues the nodes that depend on it if the fact has changed. The run
ends when nothing is queued, or when the permitted number of visits is used up.
-/
namespace FlowIR

structure Problem (N E D : Type) where
  graph : Graph N E
  direction : Direction
  domain : MeetDomain D
  /-- The fact of every node at first, and what flows into the nodes of the boundary. -/
  initial : D
  /-- The fact after a node from the fact before it. -/
  transfer : D → Nat → N → List (Nat × E) → D

namespace Problem

variable {N E D : Type}

/-- The meet of the facts that flow into a node. -/
def input (problem : Problem N E D) (outputs : Std.ExtTreeMap Nat D) (id : Nat) : D :=
  match problem.direction.incoming problem.graph id with
  | [] => problem.initial
  | edges => problem.domain.meetAll (edges.map fun (other, _) => outputs.getD other problem.initial)

/-- A run after some visits, the latest visit first. -/
structure Run (D : Type) where
  outputs : Std.ExtTreeMap Nat D
  worklist : Worklist
  visits : List Nat

def start (problem : Problem N E D) : Run D :=
  { outputs := problem.graph.entries.map fun _ _ => problem.initial
    worklist := (Worklist.ofGraph problem.direction problem.graph).pushAll problem.graph.ids
    visits := [] }

/-- The fact after a node, computed from the current facts. -/
def visitOutput (problem : Problem N E D) (outputs : Std.ExtTreeMap Nat D) (id : Nat)
    (label : N) : D :=
  problem.transfer (problem.input outputs id) id label (problem.direction.incoming problem.graph id)

variable [DecidableEq D]

def visit (problem : Problem N E D) (run : Run D) (id : Nat) (worklist : Worklist) : Run D :=
  match problem.graph.label? id with
  | none => { run with worklist }
  | some label =>
    let output := problem.visitOutput run.outputs id label
    let visits := id :: run.visits
    if run.outputs[id]? = some output then { run with worklist, visits }
    else
      { outputs := run.outputs.insert id output
        worklist := worklist.pushAll (problem.direction.dependents problem.graph id)
        visits }

/-- At most so many visits. -/
def runFrom (problem : Problem N E D) : Nat → Run D → Run D
  | 0, run => run
  | budget + 1, run =>
    match run.worklist.pop? with
    | none => run
    | some (id, worklist) => problem.runFrom budget (problem.visit run id worklist)

/-- Counts of visits do not exceed the greatest number of 64 bits. -/
def maxCount : Nat := UInt64.size - 1

/-- The visits that a limit for each node permits. -/
def visitLimit (problem : Problem N E D) (nodeLimit : Nat) : Nat :=
  min (nodeLimit * problem.graph.nodeCount) maxCount

/-- A node limit of zero means no limit, and then only the fuel ends a run that does not
converge. -/
def budget (problem : Problem N E D) (nodeLimit fuel : Nat) : Nat :=
  if nodeLimit = 0 then fuel else problem.visitLimit nodeLimit

def run (problem : Problem N E D) (nodeLimit fuel : Nat) : Run D :=
  problem.runFrom (problem.budget nodeLimit fuel) problem.start

/-- The facts after all nodes, when none of them changes any more. -/
structure Solution (D : Type) where
  outputs : Std.ExtTreeMap Nat D

/-- Nodes were still queued after the permitted number of visits. -/
structure DidNotConverge where
  processed : Nat
  deriving DecidableEq, Repr

def DidNotConverge.message (stopped : DidNotConverge) : String :=
  s!"dataflow analysis did not converge after processing {stopped.processed} nodes"

def Run.solution (run : Run D) : Except DidNotConverge (Solution D) :=
  if run.worklist.isEmpty then .ok { outputs := run.outputs }
  else .error { processed := run.visits.length }

/-- The limit of visits for each node unless another one is asked for. -/
def defaultNodeLimit : Nat := 20

/-- The facts on which the run settles, if it does. The fuel only counts when the limit is zero. -/
def solve (problem : Problem N E D) (nodeLimit : Nat) (fuel : Nat) :
    Except DidNotConverge (Solution D) :=
  (problem.run nodeLimit fuel).solution

end Problem

end FlowIR
