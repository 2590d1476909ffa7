import FlowIR.Graph.Basic

/-!
# Graphs as DOT text

One line for each node, a blank line, one line for each edge. Labels are quoted.
-/
namespace FlowIR.Dot

/-- Inside of a quoted label a backslash and a quote are written with a backslash before them. -/
def escapeChar (c : Char) : List Char :=
  if c = '\\' ∨ c = '"' then ['\\', c] else [c]

def escape (text : String) : String := String.ofList (text.toList.flatMap escapeChar)

def nodeName (id : Nat) : String := s!"Node_{id}"

def labelled (text : String) : String := "[label=\"" ++ escape text ++ "\"]"

def nodeLine (id : Nat) (text : String) : String := "  " ++ nodeName id ++ labelled text ++ "\n"

def edgeLine (source target : Nat) (text : Option String) : String :=
  "  " ++ nodeName source ++ " -> " ++ nodeName target ++ ((text.map labelled).getD "") ++ "\n"

/-- The text of a graph from the texts of its nodes and edges. An edge without text has no label. -/
def digraph (name : String) (nodes : List (Nat × String))
    (edges : List (Graph.Edge (Option String))) :
    String :=
  let nodeLines := nodes.map fun (id, text) => nodeLine id text
  let edgeLines := edges.map fun edge => edgeLine edge.source edge.target edge.label
  "digraph " ++ name ++ " \x7b\n" ++ String.join nodeLines ++ "\n"
    ++ String.join edgeLines ++ "\x7d\n"

end FlowIR.Dot

namespace FlowIR.Graph

variable {N E : Type}

/-- The default name is `G`. -/
def toDot (name : Option String) (graph : Graph N E) (nodeText : Nat → N → String)
    (edgeText : E → Option String) : String :=
  Dot.digraph (name.getD "G") (graph.nodes.map fun (id, label) => (id, nodeText id label))
    (graph.edges.map fun edge =>
      { source := edge.source, target := edge.target, label := edgeText edge.label })

end FlowIR.Graph
