import FlowIR.Graph.Basic

/-!
# Faults

What can only go wrong when a graph or a module does not belong to the values that it is asked
about.
-/
namespace FlowIR

inductive Fault where
  | missingEndpoint (missing : Graph.MissingEndpoint)
  | missingFact (id : Nat)
  | notInDependenceGraph (id : Nat)
  /-- A number is not that of a value or a type of the module. -/
  | outOfRange
  deriving DecidableEq, Repr

namespace Fault

def message? : Fault → Option String
  | missingEndpoint missing => some missing.message
  | missingFact id => some s!"No dataflow fact recorded for node {id}."
  | notInDependenceGraph id =>
    some s!"Instruction v{id} is not reachable from itself in the control dependence graph."
  | outOfRange => none

/-- Something that is there unless a number is out of range. -/
def orOutOfRange {α : Type} : Option α → Except Fault α
  | some value => .ok value
  | none => .error outOfRange

end Fault

end FlowIR
