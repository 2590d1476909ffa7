import FlowIR.Proofs.Graph.Listing

/-!
# Taking a node out and putting it back

A node is taken out of its graph together with its edges, at whose other ends they are removed too.
What is left has all other nodes and edges. The edges of the node are told on both of its sides, so
a loop is told twice. With the outgoing edges, and the incoming ones that are no loops, nothing is
told twice, and inserting them in this order gives the graph back: between any two nodes the labels
are then those of the rest, or those of the node, in the same order as before.
-/
namespace FlowIR.Graph

variable {N E : Type} {graph : Graph N E} {id : Nat}

/-! ### What is left -/

private theorem label?_removeNode (graph : Graph N E) (id other : Nat) :
    (graph.removeNode id).label? other = if id = other then none else graph.label? other := by
  simp only [label?, removeNode, entries_eraseOutgoing, entries_eraseIncoming,
    Std.ExtTreeMap.getElem?_erase]
  by_cases here : id = other
  · simp [here]
  · -- Another node may lose edges on either side, but not its label.
    by_cases source : other ∈ graph.predIds id <;> by_cases target : other ∈ graph.succIds id <;>
      simp [here, source, target, Function.comp_def]

private theorem mem_insertNode_removeNode {other : Nat} {label : N} :
    other ∈ (graph.removeNode id).insertNode id label ↔ id = other ∨ other ∈ graph := by
  rw [mem_insertNode, mem_iff_label?, label?_removeNode]
  by_cases here : id = other <;> simp [here, mem_iff_label?]

private theorem Coherent.edgeLabels_removeNode (coherent : graph.Coherent)
    (id source target : Nat) :
    (graph.removeNode id).edgeLabels source target =
      if id = source ∨ id = target then [] else graph.edgeLabels source target := by
  rw [edgeLabels, coherent.succMap_removeNode]
  split <;> rfl

/-! ### The edges of the node -/

/-- All outgoing edges, then the incoming ones that are no loops. -/
def Context.edges (context : Context N E) : List (Edge E) :=
  context.succs.map (fun (target, label) => { source := context.node, target, label }) ++
    (context.preds.filter fun (source, _) => source ≠ context.node).map fun (source, label) =>
      { source, target := context.node, label }

/-- Puts the node back, and then its edges. -/
def Context.insertInto (context : Context N E) (rest : Graph N E) :
    Except MissingEndpoint (Graph N E) :=
  context.edges.foldlM (fun graph edge => graph.insertEdge edge.source edge.target edge.label)
    (rest.insertNode context.node context.label)

/-- The same edge seen from its other end. -/
def Edge.flip (edge : Edge E) : Edge E := { edge with source := edge.target, target := edge.source }

private theorem labelsBetween_map_flip (edges : List (Edge E)) (source target : Nat) :
    labelsBetween (edges.map Edge.flip) source target = labelsBetween edges target source := by
  simp only [labelsBetween, List.filter_map, List.map_map, Function.comp_def, Edge.flip, and_comm]

private theorem labelsBetween_filter_source (edges : List (Edge E)) (kept : Nat → Bool)
    (source target : Nat) :
    labelsBetween (edges.filter fun edge => kept edge.source) source target =
      if kept source then labelsBetween edges source target else [] := by
  rw [labelsBetween, List.filter_filter]
  split
  next keeps =>
    -- The test on the source says nothing new about edges from this source.
    rw [labelsBetween]
    congr 1
    apply List.filter_congr
    intro edge _
    by_cases here : edge.source = source ∧ edge.target = target
    · simp [here, keeps]
    · simp [here]
  next drops =>
    -- An edge from this source does not pass both tests.
    rw [List.map_eq_nil_iff, List.filter_eq_nil_iff]
    intro edge _ both
    simp only [Bool.and_eq_true, decide_eq_true_eq] at both
    exact drops (both.1.1 ▸ both.2)

private theorem length_edges_context (context : Context N E) :
    context.edges.length + context.preds.countP (·.1 = context.node) =
      context.preds.length + context.succs.length := by
  have split : context.preds.length = context.preds.countP (·.1 = context.node) +
      (context.preds.filter fun (source, _) => source ≠ context.node).length := by
    rw [← List.countP_eq_length_filter, List.length_eq_countP_add_countP (·.1 = context.node)]
    simp
  rw [Context.edges, List.length_append, List.length_map, List.length_map, split]
  omega

private theorem exists_context? (member : id ∈ graph) :
    ∃ context, graph.context? id = some context := by
  obtain ⟨entry, found⟩ := exists_entry member
  exact ⟨_, by rw [context?, found, Option.map_some]⟩

private theorem context?_eq_some {context : Context N E}
    (found : graph.context? id = some context) :
    ∃ label, graph.label? id = some label ∧
      context = ⟨id, label, graph.predecessors id, graph.successors id⟩ := by
  obtain ⟨entry, known, rfl⟩ := Option.map_eq_some_iff.mp found
  exact ⟨entry.label, by simp [label?, known], by simp [predecessors, successors, predMap,
    succMap, known]⟩

/-! ### Putting the node back -/

namespace Coherent

variable (coherent : graph.Coherent) {context : Context N E}
  (found : graph.context? id = some context)
include coherent found

/-- The edges of the node are all edges that have it for an end. -/
theorem labelsBetween_context (source target : Nat) :
    labelsBetween context.edges source target =
      if id = source ∨ id = target then graph.edgeLabels source target else [] := by
  obtain ⟨label, _, rfl⟩ := context?_eq_some found
  have by_side : Context.edges ⟨id, label, graph.predecessors id, graph.successors id⟩ =
      ((graph.succMap id).edges.map fun other =>
          { source := id, target := other.1, label := other.2 }) ++
        (((graph.predMap id).edges.map fun other =>
          { source := id, target := other.1, label := other.2 }).map Edge.flip).filter
            fun edge => edge.source ≠ id := by
    rw [Context.edges, List.map_map, List.filter_map]
    rfl
  rw [by_side, labelsBetween_append, labelsBetween_adjacency,
    labelsBetween_filter_source _ (· ≠ id), labelsBetween_map_flip, labelsBetween_adjacency,
    ← coherent.mirrored]
  -- A loop is among the outgoing edges only.
  by_cases at_source : id = source
  · subst at_source
    simp [edgeLabels]
  · by_cases at_target : id = target
    · subst at_target
      simp [edgeLabels, at_source, Ne.symm at_source]
    · simp [at_source, at_target]

/-- Parallel edges are all left, or are all edges of the node. -/
theorem edgeLabels_eq_append (source target : Nat) :
    graph.edgeLabels source target =
      (graph.removeNode id).edgeLabels source target ++
        labelsBetween context.edges source target := by
  rw [coherent.edgeLabels_removeNode, coherent.labelsBetween_context found]
  split <;> simp

private theorem mem_edges_of_context {edge : Edge E} (listed : edge ∈ context.edges) :
    edge ∈ graph.edges := by
  rw [mem_edges, coherent.edgeLabels_eq_append found]
  exact List.mem_append_right _ (mem_labelsBetween.mpr listed)

private theorem insertInto_removeNode : context.insertInto (graph.removeNode id) = .ok graph := by
  obtain ⟨label, labelled, same⟩ := context?_eq_some found
  have begins : (graph.removeNode id).insertNode context.node context.label =
      (graph.removeNode id).insertNode id label := by rw [same]
  have ends : ∀ edge ∈ context.edges, edge.source ∈ (graph.removeNode id).insertNode id label ∧
      edge.target ∈ (graph.removeNode id).insertNode id label := by
    intro edge listed
    rw [mem_insertNode_removeNode, mem_insertNode_removeNode]
    exact (coherent.edge_ends (coherent.mem_edges_of_context found listed)).imp Or.inr Or.inr
  rw [Context.insertInto, begins]
  -- No edge is refused, so what is left is to compare the labels.
  refine (foldlM_insertEdge_eq_ok_iff _ _ graph).mpr ⟨ends, ?_⟩
  have restored := Coherent.foldl_addEdge context.edges _
    ((coherent.removeNode id).insertNode id label)
    (fun graph edge => graph.addEdge edge.source edge.target edge.label)
    fun _ edge listed => Or.inr ⟨_, _, edge.label, (ends edge listed).1, (ends edge listed).2, rfl⟩
  apply eq_of_labels restored.1 coherent
  · intro other
    rw [label?_foldl_addEdge, label?_insertNode, label?_removeNode]
    split
    next here => rw [← here, labelled]
    next => rfl
  · intro source target
    have no_edge_yet : ((graph.removeNode id).insertNode id label).edgeLabels source target =
        (graph.removeNode id).edgeLabels source target := by
      rw [edgeLabels, succMap_insertNode, edgeLabels]
    rw [edgeLabels_foldl_addEdge _ _ fun edge listed => (ends edge listed).1, no_edge_yet,
      ← coherent.edgeLabels_eq_append found]

/-! ### Counting edges -/

private theorem edges_perm_removeNode :
    graph.edges.Perm ((graph.removeNode id).edges ++ context.edges) := by
  classical
  apply perm_of_labelsBetween
  intro source target
  rw [labelsBetween_append, labelsBetween_edges, labelsBetween_edges,
    ← coherent.edgeLabels_eq_append found]

private theorem edgeCount_removeNode :
    graph.edgeCount + context.succs.countP (·.1 = id) =
      (graph.removeNode id).edgeCount + context.preds.length + context.succs.length := by
  have count := (coherent.edges_perm_removeNode found).length_eq
  have told_once := length_edges_context context
  rw [List.length_append, length_edges, length_edges] at count
  obtain ⟨label, _, rfl⟩ := context?_eq_some found
  -- A loop is told once on either side.
  have loops : (graph.predecessors id).countP (·.1 = id) =
      (graph.successors id).countP (·.1 = id) := by
    rw [predecessors, successors, countP_adjacency_edges, countP_adjacency_edges, coherent.mirrored]
  simp only at told_once ⊢
  omega

end Coherent

/-! ### The parts together -/

/-- A node of a graph is taken out with its label and its edges on both sides. The rest has no edge
at the node, and otherwise the same nodes and edges, with the same labels in the same order. Both
parts have as many edges together as the graph, but for loops, which are told on both sides of the
node. Inserting the node into the rest again, then its outgoing edges and then its incoming ones but
for the loops, refuses nothing and gives the same graph. -/
theorem decompose_reassembles (graph : Graph N E) (built : graph.Built) (id : Nat)
    (member : id ∈ graph) :
    ∃ context rest, graph.decompose id = some (context, rest) ∧
      (context.node = id ∧ graph.label? id = some context.label ∧
        context.preds = graph.predecessors id ∧
        context.succs = graph.successors id) ∧
      (∀ other, rest.label? other = if id = other then none else graph.label? other) ∧
      (∀ source target, rest.edgeLabels source target =
        if id = source ∨ id = target then [] else graph.edgeLabels source target) ∧
      graph.edgeCount + context.succs.countP (·.1 = id) =
        rest.edgeCount + context.preds.length + context.succs.length ∧
      context.insertInto rest = .ok graph := by
  have coherent := built.coherent
  obtain ⟨context, found⟩ := exists_context? member
  refine ⟨context, graph.removeNode id, by rw [decompose, found, Option.map_some], ?_,
    label?_removeNode graph id,
    coherent.edgeLabels_removeNode id, coherent.edgeCount_removeNode found,
    coherent.insertInto_removeNode found⟩
  obtain ⟨label, labelled, rfl⟩ := context?_eq_some found
  exact ⟨rfl, labelled, rfl, rfl⟩

/-- A node with parallel edges from another one, loops, and edges to and from a third one. -/
def hub : Graph Nat Nat :=
  ((((((((((∅ : Graph Nat Nat).insertNode 0 10).insertNode 1 11).insertNode 2 12).addEdge 0 1
    5).addEdge 1 1 6).addEdge 0 1 5).addEdge 1 2 7).addEdge 1 1 9).addEdge 2 0 4).addEdge 2 1 3

theorem hub_reassembles :
    hub.Built ∧ ∃ context rest, hub.decompose 1 = some (context, rest) ∧
      context = { node := 1, label := 11, preds := [(0, 5), (0, 5), (1, 6), (1, 9), (2, 3)]
                  succs := [(1, 6), (1, 9), (2, 7)] } ∧
      rest.edgeLabels 2 0 = [4] ∧ rest.edgeLabels 2 1 = [] ∧ rest.edgeCount = 1 ∧
      hub.edgeCount = 7 ∧
      context.insertInto rest = .ok hub := by
  have built : hub.Built := by
    have empty : (∅ : Graph Nat Nat).Built := .empty
    have nodes := ((empty.insertNode 0 10).insertNode 1 11).insertNode 2 12
    have first := (nodes.addEdge 0 1 5 (by decide) (by decide)).addEdge 1 1 6
      (by decide) (by decide)
    have second := (first.addEdge 0 1 5 (by decide) (by decide)).addEdge 1 2 7
      (by decide) (by decide)
    have third := (second.addEdge 1 1 9 (by decide) (by decide)).addEdge 2 0 4
      (by decide) (by decide)
    exact third.addEdge 2 1 3 (by decide) (by decide)
  obtain ⟨context, rest, parts, ⟨node, labelled, preds, succs⟩, _, left, count, whole⟩ :=
    decompose_reassembles hub built 1 (by decide +kernel)
  have label : hub.label? 1 = some 11 := by decide +kernel
  have incoming : hub.predecessors 1 = [(0, 5), (0, 5), (1, 6), (1, 9), (2, 3)] := by decide +kernel
  have outgoing : hub.successors 1 = [(1, 6), (1, 9), (2, 7)] := by decide +kernel
  have edges : hub.edgeCount = 7 := by decide +kernel
  obtain ⟨_, _, _, _⟩ := context
  simp only at node labelled preds succs
  obtain rfl := Option.some.inj (label.symm.trans labelled)
  subst node preds succs
  rw [incoming, outgoing] at *
  refine ⟨built, _, rest, parts, rfl, ?_, ?_, ?_, edges, whole⟩
  · rw [left]
    decide +kernel
  · rw [left]
    decide +kernel
  · have told : 7 + 2 = rest.edgeCount + 5 + 3 := by simpa [edges] using count
    omega

end FlowIR.Graph
