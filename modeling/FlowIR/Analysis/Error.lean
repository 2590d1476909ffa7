import FlowIR.Dataflow.Problem
import FlowIR.Fault

/-!
# Why an analysis has no result
-/
namespace FlowIR

inductive AnalysisError where
  | notAFunction (id : Nat)
  /-- The function has no instruction to start with. -/
  | declaration (id : Nat)
  | didNotConverge (stopped : Problem.DidNotConverge)
  | fault (cause : Fault)
  deriving DecidableEq, Repr

def AnalysisError.message? : AnalysisError → Option String
  | notAFunction id => some s!"value v{id} is not a function"
  | declaration id => some s!"function v{id} has no body"
  | didNotConverge stopped => some stopped.message
  | fault cause => cause.message?

end FlowIR
