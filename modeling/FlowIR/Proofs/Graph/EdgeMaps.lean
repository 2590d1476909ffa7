import FlowIR.Proofs.Graph.Listing

/-!
# Relabelled edges and turned edges

Relabelling inserts all edges of a graph again, one after the other, in the order in which the graph
lists them. That order goes by source and target, and keeps parallel edges in their order, so at
both ends the labels come out as if they had been mapped in place. Turning edges around exchanges
the two ends in place. So relabelling with the identity changes nothing, relabelling twice is
relabelling once, and edges can be turned before or after they are relabelled.
-/
namespace FlowIR.Graph

variable {N E F G : Type} {graph : Graph N E}

/-! ### Relabelled edges -/

def Edge.map (f : Nat → Nat → E → F) (edge : Edge E) : Edge F :=
  { source := edge.source, target := edge.target, label := f edge.source edge.target edge.label }

private theorem labelsBetween_map (f : Nat → Nat → E → F) (edges : List (Edge E))
    (source target : Nat) :
    labelsBetween (edges.map (Edge.map f)) source target =
      (labelsBetween edges source target).map (f source target) := by
  induction edges with
  | nil => rfl
  | cons edge rest ih =>
    rw [List.map_cons, labelsBetween_cons, labelsBetween_cons, ih]
    by_cases here : edge.source = source ∧ edge.target = target
    · obtain ⟨rfl, rfl⟩ := here
      simp [Edge.map]
    · simp [Edge.map, here]

namespace Coherent

variable (coherent : graph.Coherent) (f : Nat → Nat → E → F)
include coherent

/-- The relabelled graph is that of the same nodes and the relabelled edges, none of which is
refused. -/
theorem build_mapEdges :
    build graph.nodes (graph.edges.map (Edge.map f)) = .ok (graph.mapEdges f) := by
  apply build_eq_ok_iff.mpr
  constructor
  · -- The ends of an edge stay the same, and they are nodes.
    intro edge member
    obtain ⟨original, listed, rfl⟩ := List.mem_map.mp member
    rw [map_fst_nodes, mem_ids, mem_ids]
    exact coherent.edge_ends listed
  · exact List.foldl_map

private theorem label?_mapEdges (id : Nat) : (graph.mapEdges f).label? id = graph.label? id := by
  rw [label?_of_build (coherent.build_mapEdges f), label?_isolated_nodes]

private theorem edgeLabels_mapEdges (source target : Nat) :
    (graph.mapEdges f).edgeLabels source target =
      (graph.edgeLabels source target).map (f source target) := by
  rw [edgeLabels_of_build (coherent.build_mapEdges f), labelsBetween_map, labelsBetween_edges]

private theorem mapEdges_mapEdges (h : Nat → Nat → F → G) :
    (graph.mapEdges f).mapEdges h = graph.mapEdges fun source target label =>
      h source target (f source target label) := by
  have mapped := coherent.mapEdges f
  apply eq_of_labels (mapped.mapEdges h) (coherent.mapEdges _)
  · intro id
    rw [mapped.label?_mapEdges, coherent.label?_mapEdges, coherent.label?_mapEdges]
  · intro source target
    rw [mapped.edgeLabels_mapEdges, coherent.edgeLabels_mapEdges,
      coherent.edgeLabels_mapEdges, List.map_map]
    rfl

omit f in
private theorem mapEdges_id : graph.mapEdges (fun _ _ label => label) = graph := by
  apply eq_of_labels (coherent.mapEdges _) coherent
  · exact coherent.label?_mapEdges _
  · intro source target
    rw [coherent.edgeLabels_mapEdges, List.map_id']

end Coherent

/-! ### Turned edges -/

private theorem label?_reverse (graph : Graph N E) (id : Nat) :
    graph.reverse.label? id = graph.label? id := by
  cases found : graph.entries[id]? <;> simp [label?, reverse, found]

namespace Coherent

variable (coherent : graph.Coherent)
include coherent

private theorem edgeLabels_reverse (source target : Nat) :
    graph.reverse.edgeLabels source target = graph.edgeLabels target source := by
  rw [edgeLabels, edgeLabels, succMap_reverse, coherent.mirrored]

private theorem reverse_mapEdges (f : Nat → Nat → E → F) :
    (graph.mapEdges f).reverse = graph.reverse.mapEdges fun source target => f target source := by
  have mapped := coherent.mapEdges f
  -- Both sides map the labels of the edges that led the other way, with the ends that these had.
  apply eq_of_labels mapped.reverse (coherent.reverse.mapEdges _)
  · intro id
    rw [label?_reverse, coherent.label?_mapEdges, coherent.reverse.label?_mapEdges, label?_reverse]
  · intro source target
    rw [mapped.edgeLabels_reverse, coherent.edgeLabels_mapEdges,
      coherent.reverse.edgeLabels_mapEdges, coherent.edgeLabels_reverse]

end Coherent

/-! ### The laws together -/

/-- Whatever operations led to a graph, relabelling its edges refuses none of them. Relabelling with
the identity gives the graph itself, relabelling twice is relabelling with both functions at once,
and relabelled edges that are turned around are turned edges, relabelled with the ends exchanged.
Edges that are turned around twice are as before. -/
theorem mapEdges_laws (graph : Graph N E) (built : graph.Built) (f : Nat → Nat → E → F)
    (h : Nat → Nat → F → G) :
    build graph.nodes (graph.edges.map (Edge.map f)) = .ok (graph.mapEdges f) ∧
    graph.mapEdges (fun _ _ label => label) = graph ∧
    (graph.mapEdges f).mapEdges h =
      (graph.mapEdges fun source target label => h source target (f source target label)) ∧
    (graph.mapEdges f).reverse = (graph.reverse.mapEdges fun source target => f target source) ∧
    graph.reverse.reverse = graph := by
  have coherent := built.coherent
  exact ⟨coherent.build_mapEdges f, coherent.mapEdges_id, coherent.mapEdges_mapEdges f h,
    coherent.reverse_mapEdges f, reverse_reverse graph⟩

/-- Parallel edges with other edges inserted between them, and a loop. -/
def braided : Graph Unit Nat :=
  ((((((∅ : Graph Unit Nat).insertNode 0 ()).insertNode 1 ()).addEdge 0 1 6).addEdge 1 0 7).addEdge
    1 1 8).addEdge 0 1 5

theorem braided_mapEdges :
    braided.Built ∧ (braided.mapEdges fun _ _ label => label) = braided ∧
    (braided.mapEdges fun source _ label => 100 * source + label).edgeLabels 0 1 = [6, 5] ∧
    ((braided.mapEdges fun source _ label => 100 * source + label).mapEdges fun _ target label =>
      (target, label)) =
      (braided.mapEdges fun source target label => (target, 100 * source + label)) ∧
    (braided.mapEdges fun source _ label => 100 * source + label).reverse =
      (braided.reverse.mapEdges fun _ target label => 100 * target + label) ∧
    (braided.reverse.mapEdges fun _ target label => 100 * target + label).edgeLabels 0 1 = [107] ∧
    braided.reverse ≠ braided := by
  have built : braided.Built := by
    have empty : (∅ : Graph Unit Nat).Built := .empty
    have nodes := (empty.insertNode 0 ()).insertNode 1 ()
    have opposite :=
      (nodes.addEdge 0 1 6 (by decide) (by decide)).addEdge 1 0 7 (by decide) (by decide)
    exact (opposite.addEdge 1 1 8 (by decide) (by decide)).addEdge 0 1 5 (by decide) (by decide)
  obtain ⟨_, same, twice, turned, _⟩ :=
    mapEdges_laws braided built (fun source _ label => 100 * source + label)
      fun _ target label => (target, label)
  exact ⟨built, same, by decide +kernel, twice, turned, by decide +kernel, by decide +kernel⟩

end FlowIR.Graph
