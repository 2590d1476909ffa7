import FlowIR.Proofs.Graph.Bounds

/-!
# Laws of the union

The union of graphs is associative, and a graph that is part of the left one adds nothing to it. So
the union is idempotent, and the graph without nodes is neutral on the right. It is neutral on the
left for graphs in which no label stands twice between the same nodes, since a label of the right
graph is added once only. In the other order the union has the same nodes and the same labels
between them, but a common node keeps the other label, and parallel edges may change places.

Coherent graphs are the same if their nodes and edges have the same labels, so each law comes down
to one about the labels between two nodes.
-/
namespace FlowIR.Graph

variable {N E : Type} [DecidableEq E]

/-! ### Laws of adjoining -/

private theorem adjoin_assoc (first second third : List E) :
    adjoin (adjoin first second) third = adjoin first (adjoin second third) := by
  -- The third list grows at its end, so that the last label is the last one to be adjoined on both
  -- sides.
  induction third using List.reverseRecOn with
  | nil => simp
  | append_singleton third label ih =>
    rw [adjoin_append, adjoin_append, ih, adjoin_singleton (adjoin second third)]
    split
    next known =>
      -- The label is among those of the second and the third list, so it is not new on the left
      -- either.
      exact adjoin_eq_left (by simpa using Or.inr (mem_adjoin.mp known))
    next => rw [adjoin_append]

private theorem nil_adjoin {labels : List E} (distinct : labels.Nodup) :
    adjoin [] labels = labels := by
  -- Behind labels without the last one, the last one is new.
  induction labels using List.reverseRecOn with
  | nil => simp
  | append_singleton labels label ih =>
    rw [← List.concat_eq_append, List.nodup_concat] at distinct
    rw [adjoin_append, ih distinct.2, adjoin_singleton, if_neg distinct.1]

/-! ### Laws of the union -/

namespace Coherent

variable {left right third : Graph N E}

private theorem merge_assoc (left_coherent : left.Coherent) (right_coherent : right.Coherent)
    (third_coherent : third.Coherent) :
    (left.merge right).merge third = left.merge (right.merge third) := by
  apply eq_of_labels ((left_coherent.merge right_coherent).merge third_coherent)
    (left_coherent.merge (right_coherent.merge third_coherent))
  · intro id
    rw [label?_merge, label?_merge, label?_merge, label?_merge, Option.or_assoc]
  · intro source target
    rw [edgeLabels_merge, edgeLabels_merge, edgeLabels_merge, edgeLabels_merge, adjoin_assoc]

/-- A graph that has no other nodes and no other labels adds nothing. -/
theorem merge_eq_left (left_coherent : left.Coherent) (right_coherent : right.Coherent)
    (nodes : ∀ id ∈ right, id ∈ left)
    (edges : ∀ source target, ∀ label ∈ right.edgeLabels source target,
      label ∈ left.edgeLabels source target) :
    left.merge right = left := by
  apply eq_of_labels (left_coherent.merge right_coherent) left_coherent
  · intro id
    rw [label?_merge]
    -- A node of the left graph keeps its label, and there is no other one.
    by_cases member : id ∈ left
    · obtain ⟨label, labelled⟩ := mem_iff_label?.mp member
      rw [labelled, Option.some_or]
    · rw [label?_of_not_mem member, label?_of_not_mem (mt (nodes id) member), Option.or_none]
  · intro source target
    rw [edgeLabels_merge]
    exact adjoin_eq_left (edges source target)

/-- Without the condition, a repeated label would be there once only. -/
theorem empty_merge (coherent : right.Coherent)
    (distinct : ∀ source target, (right.edgeLabels source target).Nodup) :
    (∅ : Graph N E).merge right = right := by
  apply eq_of_labels (Coherent.empty.merge coherent) coherent
  · intro id
    rw [label?_merge, label?_of_not_mem (not_mem_empty id), Option.none_or]
  · intro source target
    have no_labels : (∅ : Graph N E).edgeLabels source target = [] := by simp [edgeLabels]
    rw [edgeLabels_merge, no_labels, nil_adjoin (distinct source target)]

end Coherent

/-- The union of two graphs keeps the left one, its labels at common nodes and the order and number
of its parallel edges included, and adds the nodes that are only in the right one, and between any
two nodes the labels that are only there, each once and in their order. Every edge that is added has
both ends in the graph. The union is associative, and idempotent in that neither graph adds anything
to it again on the left. The graph without nodes is neutral on the right, and on the left for a
graph that has no label twice between the same nodes. In the other order the union has the same
nodes, and between any two of them the same labels up to order and number. -/
theorem merge_laws (left right third : Graph N E) (left_built : left.Built)
    (right_built : right.Built) (third_built : third.Built) :
    left.Joins right ∧ (left.merge right).merge third = left.merge (right.merge third) ∧
    left.merge left = left ∧ (left.merge right).merge left = left.merge right ∧
    left.merge ∅ = left ∧
    (∀ id, (left.merge right).label? id = (left.label? id).or (right.label? id)) ∧
    (∀ source target, (left.merge right).edgeLabels source target = left.edgeLabels source target ++
      ((right.edgeLabels source target).filter (· ∉ left.edgeLabels source target)).eraseDups) ∧
    (left.merge right).ids = (right.merge left).ids ∧
    (∀ source target label,
      label ∈ (left.merge right).edgeLabels source target ↔
        label ∈ (right.merge left).edgeLabels source target) ∧
    ((∀ source target, (right.edgeLabels source target).Nodup) →
      (∅ : Graph N E).merge right = right) := by
  have left_coherent := left_built.coherent
  have right_coherent := right_built.coherent
  refine ⟨right_coherent.joins left, left_coherent.merge_assoc right_coherent third_built.coherent,
    ?_, ?_, ?_,
    label?_merge left right, edgeLabels_merge left right, ?_, ?_, right_coherent.empty_merge⟩
  · exact left_coherent.merge_eq_left left_coherent (fun _ member => member)
      (fun _ _ _ listed => listed)
  · exact (left_coherent.merge right_coherent).merge_eq_left left_coherent
      (fun _ member => mem_merge.mpr (Or.inl member)) fun _ _ _ listed =>
        mem_edgeLabels_merge.mpr (Or.inl listed)
  · exact left_coherent.merge_eq_left .empty (fun id member => absurd member (not_mem_empty id))
      (by simp [edgeLabels])
  · exact ids_eq_of_mem_iff fun id => by rw [mem_merge, mem_merge, or_comm]
  · intro source target label
    rw [mem_edgeLabels_merge, mem_edgeLabels_merge, or_comm]

/-- One label twice between two nodes. -/
def doubled : Graph Nat Nat :=
  ((((∅ : Graph Nat Nat).insertNode 0 10).insertNode 1 11).addEdge 0 1 5).addEdge 0 1 5

/-- The same nodes with other labels, the same edge label among others, and a third node. -/
def overlapping : Graph Nat Nat :=
  (((((((∅ : Graph Nat Nat).insertNode 0 20).insertNode 1 21).insertNode 2 22).addEdge 0 1
    6).addEdge 0 1 5).addEdge 0 1 6).addEdge 1 2 7

/-- One edge behind the third node. -/
def trailing : Graph Nat Nat :=
  (((∅ : Graph Nat Nat).insertNode 2 32).insertNode 3 33).addEdge 2 3 8

theorem doubled_merge :
    doubled.Built ∧ overlapping.Built ∧ trailing.Built ∧
    (doubled.merge overlapping).merge trailing = doubled.merge (overlapping.merge trailing) ∧
    (doubled.merge overlapping).edgeLabels 0 1 = [5, 5, 6] ∧
    (overlapping.merge doubled).edgeLabels 0 1 = [6, 5, 6] ∧
    (doubled.merge overlapping).label? 0 = some 10 ∧
    (doubled.merge overlapping).label? 2 = some 22 ∧
    (doubled.merge overlapping).merge doubled = doubled.merge overlapping ∧
    (∅ : Graph Nat Nat).merge trailing = trailing ∧
      (∅ : Graph Nat Nat).merge doubled ≠ doubled := by
  have empty : (∅ : Graph Nat Nat).Built := .empty
  have doubled_built : doubled.Built := by
    have nodes := (empty.insertNode 0 10).insertNode 1 11
    exact (nodes.addEdge 0 1 5 (by decide) (by decide)).addEdge 0 1 5 (by decide) (by decide)
  have overlapping_built : overlapping.Built := by
    have nodes := ((empty.insertNode 0 20).insertNode 1 21).insertNode 2 22
    have parallel :=
      (nodes.addEdge 0 1 6 (by decide) (by decide)).addEdge 0 1 5 (by decide) (by decide)
    exact (parallel.addEdge 0 1 6 (by decide) (by decide)).addEdge 1 2 7 (by decide) (by decide)
  have trailing_built : trailing.Built :=
    ((empty.insertNode 2 32).insertNode 3 33).addEdge 2 3 8 (by decide) (by decide)
  have distinct : ∀ source target, (trailing.edgeLabels source target).Nodup := by
    intro source target
    have one_edge : trailing.edges = [⟨2, 3, 8⟩] := by decide +kernel
    rw [← labelsBetween_edges, one_edge, labelsBetween_cons]
    split <;> simp
  obtain ⟨_, assoc, _, again, _, labels, parallel, _⟩ :=
    merge_laws doubled overlapping trailing doubled_built overlapping_built trailing_built
  obtain ⟨_, _, _, _, _, _, swapped, _⟩ :=
    merge_laws overlapping doubled trailing overlapping_built doubled_built trailing_built
  obtain ⟨_, _, _, _, _, _, _, _, _, neutral⟩ :=
    merge_laws doubled trailing overlapping doubled_built trailing_built overlapping_built
  refine ⟨doubled_built, overlapping_built, trailing_built, assoc, ?_, ?_, ?_, ?_, again,
    neutral distinct, ?_⟩
  · rw [parallel]
    decide +kernel
  · rw [swapped]
    decide +kernel
  · rw [labels]
    decide +kernel
  · rw [labels]
    decide +kernel
  · decide +kernel

end FlowIR.Graph
