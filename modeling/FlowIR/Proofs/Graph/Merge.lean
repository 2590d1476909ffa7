import FlowIR.Proofs.Graph.Listing
import Mathlib.Data.List.Induction

/-!
# Nodes and edges of a union

The union of two graphs has the nodes and the edges of both. Where both have a node, the label of
the left one stays. Between two nodes the labels of the left graph stay as they are, and those of
the right one that are not among them come behind, each once. So no edge is there twice that was not
there twice before.
-/
namespace FlowIR.Graph

variable {N E : Type}

/-! ### The nodes of the right graph -/

theorem label?_of_not_mem {graph : Graph N E} {id : Nat} (absent : id ∉ graph) :
    graph.label? id = none := by
  rw [label?, not_mem_iff_eq_none.mp absent, Option.map_none]

theorem label?_insertMissing (graph : Graph N E) (node : Nat × N) (id : Nat) :
    (graph.insertMissing node).label? id =
      (graph.label? id).or (if node.1 = id then some node.2 else none) := by
  by_cases known : node.1 ∈ graph
  · obtain ⟨label, labelled⟩ := mem_iff_label?.mp known
    rw [insertMissing, if_pos known]
    by_cases here : node.1 = id
    · subst here
      simp [labelled]
    · simp [here]
  · rw [insertMissing, if_neg known, label?_insertNode]
    by_cases here : node.1 = id
    · subst here
      simp [label?_of_not_mem known]
    · simp [here]

theorem edgeLabels_insertMissing (graph : Graph N E) (node : Nat × N) (a b : Nat) :
    (graph.insertMissing node).edgeLabels a b = graph.edgeLabels a b := by
  rw [insertMissing]
  split <;> simp [edgeLabels]

private theorem edgeLabels_foldl_insertMissing (nodes : List (Nat × N)) (start : Graph N E)
    (a b : Nat) :
    (nodes.foldl insertMissing start).edgeLabels a b = start.edgeLabels a b := by
  apply foldl_keeps fun graph : Graph N E => graph.edgeLabels a b = start.edgeLabels a b
  · rfl
  · intro graph node _ same
    rw [edgeLabels_insertMissing, same]

private theorem label?_foldl_insertMissing (nodes : List (Nat × N)) (start : Graph N E) (id : Nat)
    (label : N) (distinct : (nodes.map Prod.fst).Nodup) :
    (nodes.foldl insertMissing start).label? id = some label ↔
      start.label? id = some label ∨ start.label? id = none ∧ (id, label) ∈ nodes := by
  induction nodes generalizing start with
  | nil => simp
  | cons node rest ih =>
    obtain ⟨first, first_label⟩ := node
    obtain ⟨fresh, rest_distinct⟩ := List.nodup_cons.mp distinct
    rw [List.foldl_cons, ih _ rest_distinct, label?_insertMissing]
    by_cases here : first = id
    · -- The numbers are distinct, so the node does not come again.
      subst here
      have not_later : (first, label) ∉ rest := fun member =>
        fresh (List.mem_map.mpr ⟨(first, label), member, rfl⟩)
      cases start.label? first <;> simp [not_later, eq_comm]
    · simp [here, Ne.symm here]

/-! ### Labels behind other labels -/

variable [DecidableEq E]

/-- The labels of the left list, and behind them those of the right list that are not among them,
each once. -/
def adjoin (left right : List E) : List E := left ++ (right.filter (· ∉ left)).eraseDups

@[simp] theorem adjoin_nil (labels : List E) : adjoin labels [] = labels := by simp [adjoin]

@[simp] theorem mem_adjoin {left right : List E} {label : E} :
    label ∈ adjoin left right ↔ label ∈ left ∨ label ∈ right := by
  simp only [adjoin, List.mem_append, List.mem_eraseDups, List.mem_filter, decide_eq_true_eq]
  tauto

theorem adjoin_eq_left {left right : List E} (known : ∀ label ∈ right, label ∈ left) :
    adjoin left right = left := by
  have nothing_new : right.filter (· ∉ left) = [] := by simpa using known
  rw [adjoin, nothing_new, List.eraseDups_nil, List.append_nil]

theorem adjoin_singleton (labels : List E) (label : E) :
    adjoin labels [label] = if label ∈ labels then labels else labels ++ [label] := by
  by_cases known : label ∈ labels <;> simp [adjoin, known, List.eraseDups_cons]

/-- Labels can be adjoined one after the other. -/
theorem adjoin_append (left right more : List E) :
    adjoin left (right ++ more) = adjoin (adjoin left right) more := by
  -- What is new behind both lists is new behind the left one and is not among what was new in the
  -- right one.
  have new_later : (more.filter (· ∉ left)).removeAll (right.filter (· ∉ left)) =
      more.filter (· ∉ adjoin left right) := by
    rw [List.removeAll, List.filter_filter]
    apply List.filter_congr
    intro label _
    by_cases known : label ∈ left <;> simp [known]
  rw [adjoin, List.filter_append, List.eraseDups_append, new_later, ← List.append_assoc]
  rfl

private theorem nodup_adjoin {left right : List E} (distinct : left.Nodup) :
    (adjoin left right).Nodup := by
  -- One label is adjoined at a time, and one that is there already is not put behind again.
  induction right using List.reverseRecOn with
  | nil => simpa using distinct
  | append_singleton right label ih =>
    rw [adjoin_append, adjoin_singleton]
    split
    · exact ih
    next fresh =>
      rw [← List.concat_eq_append, List.nodup_concat]
      exact ⟨fresh, ih⟩

/-! ### The edges of the right graph -/

theorem label?_addMissing (graph : Graph N E) (edge : Edge E) (id : Nat) :
    (graph.addMissing edge).label? id = graph.label? id := by
  rw [addMissing]
  split
  · rfl
  · exact label?_addEdge graph edge.source edge.target id edge.label

theorem mem_addMissing {graph : Graph N E} {edge : Edge E} {id : Nat} :
    id ∈ graph.addMissing edge ↔ id ∈ graph := by
  rw [mem_iff_label?, label?_addMissing, ← mem_iff_label?]

section

variable {graph : Graph N E} {edge : Edge E} (source_mem : edge.source ∈ graph)
include source_mem

private theorem edgeLabels_addMissing (a b : Nat) :
    (graph.addMissing edge).edgeLabels a b =
      adjoin (graph.edgeLabels a b) (labelsBetween [edge] a b) := by
  -- The edge counts between its own ends only, and there it is added or skipped as its label is
  -- adjoined.
  by_cases here : edge.source = a ∧ edge.target = b
  · have new_label : labelsBetween [edge] a b = [edge.label] := by simp [labelsBetween, here]
    obtain ⟨rfl, rfl⟩ := here
    rw [new_label, adjoin_singleton, addMissing]
    split
    · rfl
    · rw [edgeLabels_addEdge _ source_mem, if_pos ⟨rfl, rfl⟩]
  · have no_label : labelsBetween [edge] a b = [] := by simpa [labelsBetween] using here
    rw [no_label, adjoin_nil, addMissing]
    split
    · rfl
    · rw [edgeLabels_addEdge _ source_mem, if_neg here]

theorem mem_edgeLabels_addMissing {a b : Nat} {label : E} :
    label ∈ (graph.addMissing edge).edgeLabels a b ↔
      label ∈ graph.edgeLabels a b ∨ edge = ⟨a, b, label⟩ := by
  rw [edgeLabels_addMissing source_mem, mem_adjoin, mem_labelsBetween, List.mem_singleton,
    @eq_comm _ edge]

theorem nodup_edgeLabels_addMissing {a b : Nat} (distinct : (graph.edgeLabels a b).Nodup) :
    ((graph.addMissing edge).edgeLabels a b).Nodup := by
  rw [edgeLabels_addMissing source_mem]
  exact nodup_adjoin distinct

end

private theorem label?_foldl_addMissing (edges : List (Edge E)) (start : Graph N E) (id : Nat) :
    (edges.foldl addMissing start).label? id = start.label? id := by
  apply foldl_keeps fun graph : Graph N E => graph.label? id = start.label? id
  · rfl
  · intro graph edge _ same
    rw [label?_addMissing, same]

private theorem edgeLabels_foldl_addMissing (edges : List (Edge E)) (start : Graph N E)
    (sources : ∀ edge ∈ edges, edge.source ∈ start) (a b : Nat) :
    (edges.foldl addMissing start).edgeLabels a b =
      adjoin (start.edgeLabels a b) (labelsBetween edges a b) := by
  induction edges generalizing start with
  | nil => simp
  | cons edge rest ih =>
    have rest_sources : ∀ other ∈ rest, other.source ∈ start.addMissing edge := fun other member =>
      mem_addMissing.mpr (sources other (List.mem_cons_of_mem edge member))
    rw [List.foldl_cons, ih _ rest_sources, edgeLabels_addMissing (sources edge List.mem_cons_self),
      ← adjoin_append, ← labelsBetween_append, List.singleton_append]

/-! ### The union -/

section

variable {left right : Graph N E}

theorem label?_merge (left right : Graph N E) (id : Nat) :
    (left.merge right).label? id = (left.label? id).or (right.label? id) := by
  have distinct : (right.nodes.map Prod.fst).Nodup := by
    rw [map_fst_nodes]
    exact Std.ExtTreeMap.nodup_keys
  ext label
  rw [merge, label?_foldl_addMissing, label?_foldl_insertMissing _ _ _ _ distinct, mem_nodes]
  cases left.label? id <;> simp

theorem mem_merge {id : Nat} : id ∈ left.merge right ↔ id ∈ left ∨ id ∈ right := by
  simp only [mem_iff_label?, label?_merge, ← Option.isSome_iff_exists, Option.isSome_or,
    Bool.or_eq_true]

theorem edgeLabels_merge (left right : Graph N E) (a b : Nat) :
    (left.merge right).edgeLabels a b = adjoin (left.edgeLabels a b) (right.edgeLabels a b) := by
  have sources : ∀ edge ∈ right.edges, edge.source ∈ right.nodes.foldl insertMissing left := by
    intro edge member
    have joined : right.HasEdge edge.source edge.target :=
      hasEdge_iff_mem_edges.mpr ⟨edge, member, rfl, rfl⟩
    exact mem_withNodes left joined.source_mem
  rw [merge, edgeLabels_foldl_addMissing _ _ sources, edgeLabels_foldl_insertMissing,
    labelsBetween_edges]

theorem mem_edgeLabels_merge {a b : Nat} {label : E} :
    label ∈ (left.merge right).edgeLabels a b ↔
      label ∈ left.edgeLabels a b ∨ label ∈ right.edgeLabels a b := by
  rw [edgeLabels_merge, mem_adjoin]

theorem nodup_edgeLabels_merge {a b : Nat} (distinct : (left.edgeLabels a b).Nodup) :
    ((left.merge right).edgeLabels a b).Nodup := by
  rw [edgeLabels_merge]
  exact nodup_adjoin distinct

end

end FlowIR.Graph
