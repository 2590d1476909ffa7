import FlowIR.Dominance.Sets
import FlowIR.Proofs.Graph.Merge

/-!
# What is looked up in a coherent graph is there

Both ends of an edge of a coherent graph are nodes. So a set of nodes that is kept as bits has a
place for everything that a traversal enters, and putting graphs together only asks for edges
between nodes.
-/
namespace FlowIR.Graph

variable {N E : Type} {graph : Graph N E} {id : Nat}

theorem lt_idBound (member : id ∈ graph) : id < graph.idBound := by
  rw [idBound]
  split
  next empty =>
    rw [List.max?_eq_none_iff] at empty
    exact absurd (mem_ids.mpr member) (by simp [empty])
  next greatest found =>
    have less := (List.max?_eq_some_iff.mp found).2 id (mem_ids.mpr member)
    exact Nat.lt_succ_of_le less

/-- The nodes and all that a traversal goes on to are below the bound of the graph, which is the
size of the bit sets for its nodes. -/
structure FitsBitSet (graph : Graph N E) : Prop where
  nodes : ∀ id ∈ graph, id < graph.idBound
  successors : ∀ id ∈ graph, ∀ next ∈ graph.succIds id, next < graph.idBound

theorem Coherent.fitsBitSet (coherent : graph.Coherent) : graph.FitsBitSet where
  nodes := fun _ member => lt_idBound member
  successors := fun _ _ _ listed =>
    lt_idBound (coherent.target_mem (coherent.mem_succIds.mp listed))

/-- Both ends of every edge that is put into the left graph are nodes of it, once it has the nodes
of the right graph. -/
def Joins (left right : Graph N E) : Prop :=
  ∀ edge ∈ right.edges, edge.source ∈ right.nodes.foldl insertMissing left ∧
    edge.target ∈ right.nodes.foldl insertMissing left

theorem Coherent.joins {right : Graph N E} (coherent : right.Coherent) (left : Graph N E) :
    left.Joins right := by
  intro edge member
  obtain ⟨source_mem, target_mem⟩ := coherent.edge_ends member
  exact ⟨mem_withNodes left source_mem, mem_withNodes left target_mem⟩

end FlowIR.Graph
