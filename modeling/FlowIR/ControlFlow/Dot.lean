import FlowIR.ControlFlow.Dependence
import FlowIR.Graph.Dot
import FlowIR.Module.Text

/-!
# Control flow and control dependence as DOT text

Nodes are labelled by the texts of their instructions. In the text of a dependence graph the
instructions of a block form a cluster.
-/
namespace FlowIR

/-- A graph is named after its function. -/
def Module.graphName? (module : Module) (function : ValueId) : Option String :=
  (module.operandName? function).map fun name => "\"" ++ Dot.escape name ++ "\""

/-- The text at an edge, if it has one. Nothing at all if a value is missing. -/
def FlowKind.text? (module : Module) : FlowKind → Option (Option String)
  | fallthrough => some none
  | unconditional => some none
  | onTrue _ => some (some "true")
  | onFalse _ => some (some "false")
  | onCase _ value => (module.operandName? value).map fun name => some ("case " ++ name)
  | otherwise _ => some (some "default")
  | indirect _ => some (some "indirect")
  | normal _ => some (some "normal")
  | unwind _ => some (some "unwind")

def FlowGraph.toDot? (module : Module) (flow : FlowGraph) : Option String := do
  let name ← module.graphName? flow.function
  let nodes ← flow.graph.nodes.mapM fun (id, value) => return (id, ← module.valueText? value)
  let edges ← flow.graph.edges.mapM fun edge =>
    return { source := edge.source, target := edge.target, label := ← edge.label.text? module }
  return Dot.digraph name nodes edges

namespace DependenceGraph

/-- The instructions of a block that are nodes. -/
def members (module : Module) (dependence : DependenceGraph) (block : ValueId) : List ValueId :=
  (dependence.graph.nodes.map Prod.snd).filter fun value => module.blockOf? value = some block

def cluster? (module : Module) (dependence : DependenceGraph) (block : ValueId) :
    Option String := do
  let values := dependence.members module block
  if values.isEmpty then return ""
  else
    let name ← module.operandName? block
    let lines ← values.mapM fun value =>
      return "  " ++ Dot.nodeLine value (← module.valueText? value)
    return s!"  subgraph cluster_{block} \x7b\n" ++ "    label=\"" ++ Dot.escape name ++ "\"\n"
      ++ String.join lines ++ "  \x7d\n"

def toDot? (module : Module) (dependence : DependenceGraph) : Option String := do
  let name ← module.graphName? dependence.function
  let blocks := ((module.function? dependence.function).map FunctionInfo.blocks).getD []
  let clusters ← blocks.mapM (dependence.cluster? module)
  let edgeLines := dependence.graph.edges.map fun edge => Dot.edgeLine edge.source edge.target none
  return "digraph " ++ name ++ " \x7b\n" ++ String.join clusters ++ "\n"
    ++ String.join edgeLines ++ "\x7d\n"

end DependenceGraph

end FlowIR
