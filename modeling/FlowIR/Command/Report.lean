import FlowIR.Command.Options
import FlowIR.ControlFlow.Dot
import FlowIR.Escape.Analysis
import FlowIR.Link.Module

/-!
# What the command prints

First the graphs that the options ask for, function by function, then the results of the analysis.
-/
namespace FlowIR.Command

inductive CommandError where
  | link (cause : LinkError)
  | analysis (cause : AnalysisError)
  | unknownFunction (name : String)
  deriving DecidableEq, Repr

def CommandError.message? : CommandError → Option String
  | link cause => some cause.message
  | analysis cause => cause.message?
  | unknownFunction name => some ("no function named " ++ name)

/-- The functions whose graphs are printed. -/
def selectedFunctions (module : Module) (options : Options) :
    Except CommandError (List ValueId) :=
  match options.function with
  | none => .ok module.definedFunctions
  | some name =>
    match module.functionByName? name with
    | some id => .ok [id]
    | none => .error (.unknownFunction name)

def ofText? (text : Option String) : Except AnalysisError String :=
  (Fault.orOutOfRange text).mapError .fault

/-- The graphs of one function. -/
def graphs (module : Module) (options : Options) (function : ValueId) :
    Except AnalysisError String := do
  let flow ← FlowGraph.ofFunction module function
  let flowText ← if options.dumpFlow then ofText? (flow.toDot? module) else .ok ""
  let dependenceText ←
    if options.dumpDependence then do ofText? ((← DependenceGraph.ofFlow flow).toDot? module)
    else .ok ""
  return flowText ++ dependenceText

def allGraphs (module : Module) (options : Options) : Except CommandError String :=
  if options.dumpFlow || options.dumpDependence then do
    let functions ← selectedFunctions module options
    let texts ← functions.mapM fun function => (graphs module options function).mapError .analysis
    return String.join texts
  else .ok ""

def analysisReport (module : Module) : AnalysisName → Except AnalysisError String
  | .escape => Escape.report module

def report (options : Options) (module : Module) : Except CommandError String := do
  let graphText ← allGraphs module options
  match options.analysis with
  | none => return graphText
  | some analysis =>
    return graphText ++ (← (analysisReport module analysis).mapError .analysis)

/-- The output for the text of a table. -/
def run (options : Options) (text : String) : Except CommandError String := do
  report options (← (Module.parse text).mapError .link)

end FlowIR.Command
