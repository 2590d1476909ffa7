import FlowIR.Graph.Basic
import FlowIR.OpenWeight

/-!
# Depth-first traversals

Both traversals work on a stack. A node is entered at most once, and entering it adds its successors
to the stack, so the open work is the stack together with the weights of the nodes that are not
entered yet. That number falls with every step.
-/
namespace FlowIR.Graph

variable {N E : Type}

theorem openWeight_insert_add_le (weight : Nat → Nat) (ids : List Nat)
    (entered : Std.ExtTreeSet Nat) (id : Nat) (member : id ∈ ids) (fresh : id ∉ entered) :
    openWeight weight (· ∉ entered.insert id) ids + weight id ≤
      openWeight weight (· ∉ entered) ids := by
  apply openWeight_add_le weight _ _ ids _ id member
  · simpa using fresh
  · simp
  · intro other
    simp only [Std.ExtTreeSet.mem_insert, decide_eq_true_eq]
    exact fun outside inside => outside (Or.inr inside)

theorem mem_ids {graph : Graph N E} {id : Nat} : id ∈ graph.ids ↔ id ∈ graph :=
  Std.ExtTreeMap.mem_keys

/-! ### Preorder -/

/-- The work that entering a node of the graph may add to a stack of nodes. -/
def preorderWork (graph : Graph N E) (entered : Std.ExtTreeSet Nat) : Nat :=
  openWeight (fun id => (graph.succIds id).length) (· ∉ entered) graph.ids

/-- Takes nodes off the stack and skips those that were entered before or are not in the graph. -/
def preorderFrom (graph : Graph N E) (entered : Std.ExtTreeSet Nat) : List Nat → List Nat
  | [] => []
  | id :: stack =>
    if _fresh : id ∈ graph ∧ id ∉ entered then
      id :: graph.preorderFrom (entered.insert id) (graph.succIds id ++ stack)
    else
      graph.preorderFrom entered stack
termination_by stack => graph.preorderWork entered + stack.length
decreasing_by
  · have step := openWeight_insert_add_le (fun id => (graph.succIds id).length) graph.ids entered id
      (mem_ids.mpr _fresh.1) _fresh.2
    simp only [preorderWork, List.length_append, List.length_cons] at *
    omega
  · simp

/-- The nodes reachable from the starts in depth-first preorder, successors by increasing number. -/
def preorder (graph : Graph N E) (starts : List Nat) : List Nat :=
  graph.preorderFrom ∅ starts

/-- The nodes reachable from a node, itself first. Empty if it is not in the graph. -/
def reachable (graph : Graph N E) (id : Nat) : List Nat := graph.preorder [id]

/-! ### Postorder -/

/-- A step of the postorder traversal that is still to be done. -/
inductive Step where
  | enter (id : Nat)
  | leave (id : Nat)
  deriving DecidableEq, Repr

def postorderWork (graph : Graph N E) (entered : Std.ExtTreeSet Nat) : Nat :=
  openWeight (fun id => (graph.succIds id).length + 1) (· ∉ entered) graph.ids

/-- A node is listed when it is left, after everything that was entered from it. -/
def postorderFrom (graph : Graph N E) (entered : Std.ExtTreeSet Nat) : List Step → List Nat
  | [] => []
  | .leave id :: stack => id :: graph.postorderFrom entered stack
  | .enter id :: stack =>
    if _fresh : id ∈ graph ∧ id ∉ entered then
      graph.postorderFrom (entered.insert id)
        ((graph.succIds id).map .enter ++ .leave id :: stack)
    else
      graph.postorderFrom entered stack
termination_by stack => graph.postorderWork entered + stack.length
decreasing_by
  · simp
  · have step := openWeight_insert_add_le (fun id => (graph.succIds id).length + 1)
      graph.ids entered id (mem_ids.mpr _fresh.1) _fresh.2
    simp only [postorderWork, List.length_append, List.length_cons, List.length_map] at *
    omega
  · simp

/-- The nodes reachable from the roots in depth-first postorder, successors by increasing number. -/
def postorder (graph : Graph N E) (roots : List Nat) : List Nat :=
  graph.postorderFrom ∅ (roots.map .enter)

end FlowIR.Graph
