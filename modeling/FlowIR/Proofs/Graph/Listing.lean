import FlowIR.Proofs.Graph.Coherence
import Mathlib.Data.List.Nodup

/-!
# What a graph lists

The nodes are listed once each, by increasing number. The edges are listed with their multiplicity,
and parallel edges in the order of their insertion. So a graph of given nodes and edges lists these
edges in some other order, in which parallel edges have not changed places.
-/
namespace FlowIR.Graph

variable {N E : Type}

/-! ### Nodes -/

theorem nodup_ids (graph : Graph N E) : graph.ids.Nodup := Std.ExtTreeMap.nodup_keys

theorem pairwise_lt_ids (graph : Graph N E) : graph.ids.Pairwise (· < ·) :=
  Std.ExtTreeMap.ordered_keys.imp Nat.compare_eq_lt.mp

theorem nodup_nodes (graph : Graph N E) : graph.nodes.Nodup :=
  List.Nodup.of_map Prod.fst (map_fst_nodes graph ▸ graph.nodup_ids)

/-- The list of the numbers tells nothing more than which nodes there are. -/
theorem ids_eq_of_mem_iff {left right : Graph N E} (same : ∀ id, id ∈ left ↔ id ∈ right) :
    left.ids = right.ids := by
  have permuted : left.ids.Perm right.ids := by
    rw [List.perm_ext_iff_of_nodup left.nodup_ids right.nodup_ids]
    intro id
    rw [mem_ids, mem_ids, same]
  exact permuted.eq_of_pairwise (fun _ _ _ _ less greater => absurd less (Nat.lt_asymm greater))
    left.pairwise_lt_ids right.pairwise_lt_ids

/-! ### Parallel edges in a list -/

/-- The labels of the edges that lead from the source to the target. -/
def labelsBetween (edges : List (Edge E)) (source target : Nat) : List E :=
  (edges.filter fun edge => edge.source = source ∧ edge.target = target).map Edge.label

variable {edges : List (Edge E)} {source target : Nat}

@[simp] theorem labelsBetween_nil : labelsBetween ([] : List (Edge E)) source target = [] := rfl

theorem labelsBetween_cons (edge : Edge E) (edges : List (Edge E)) (source target : Nat) :
    labelsBetween (edge :: edges) source target =
      if edge.source = source ∧
        edge.target = target then edge.label :: labelsBetween edges source target
      else labelsBetween edges source target := by
  by_cases here : edge.source = source ∧ edge.target = target <;> simp [labelsBetween, here]

theorem mem_labelsBetween {label : E} :
    label ∈ labelsBetween edges source target ↔ (⟨source, target, label⟩ : Edge E) ∈ edges := by
  simp only [labelsBetween, List.mem_map, List.mem_filter, decide_eq_true_eq]
  constructor
  · rintro ⟨edge, ⟨listed, rfl, rfl⟩, rfl⟩
    exact listed
  · intro listed
    exact ⟨_, ⟨listed, rfl, rfl⟩, rfl⟩

theorem labelsBetween_append (left right : List (Edge E)) (source target : Nat) :
    labelsBetween (left ++ right) source target =
      labelsBetween left source target ++ labelsBetween right source target := by
  simp [labelsBetween]

theorem labelsBetween_flatMap {α : Type} (items : List α) (edges : α → List (Edge E))
    (source target : Nat) :
    labelsBetween (items.flatMap edges) source target =
      items.flatMap fun item => labelsBetween (edges item) source target := by
  simp [labelsBetween, List.filter_flatMap, List.map_flatMap]

theorem labelsBetween_eq_nil
    (elsewhere : ∀ edge ∈ edges, ¬ (edge.source = source ∧ edge.target = target)) :
    labelsBetween edges source target = [] := by
  simpa [labelsBetween] using elsewhere

theorem countP_labelsBetween (keep : E → Bool) (edges : List (Edge E)) (source target : Nat) :
    (labelsBetween edges source target).countP keep =
      edges.countP fun edge => keep edge.label && decide (edge.source = source ∧
        edge.target = target) := by
  rw [labelsBetween, List.countP_map, List.countP_filter]
  rfl

theorem count_labelsBetween [DecidableEq E] (edges : List (Edge E)) (edge : Edge E) :
    (labelsBetween edges edge.source edge.target).count edge.label = edges.count edge := by
  rw [List.count, countP_labelsBetween, List.count]
  refine List.countP_congr fun other _ => ?_
  cases other
  cases edge
  simp only [Bool.and_eq_true, beq_iff_eq, decide_eq_true_eq, Edge.mk.injEq]
  exact ⟨fun both => ⟨both.2.1, both.2.2, both.1⟩, fun all => ⟨all.2.2, all.1, all.2.1⟩⟩

/-- Lists with the same labels between any two nodes hold the same edges. -/
theorem perm_of_labelsBetween [DecidableEq E] {left right : List (Edge E)}
    (same : ∀ source target, labelsBetween left source target = labelsBetween right source target) :
    left.Perm right := by
  rw [List.perm_iff_count]
  intro edge
  rw [← count_labelsBetween, ← count_labelsBetween, same]

/-! ### The edges of a graph -/

/-- Only one item of a list contributes, and the list holds it once. -/
theorem flatMap_eq_of_nodup {α β : Type} {items : List α} (distinct : items.Nodup) {item : α}
    (member : item ∈ items) {f : α → List β}
    (others : ∀ other ∈ items, other ≠ item → f other = []) : items.flatMap f = f item := by
  induction items with
  | nil => simp at member
  | cons first rest ih =>
    obtain ⟨fresh, rest_distinct⟩ := List.nodup_cons.mp distinct
    rw [List.flatMap_cons]
    rcases List.mem_cons.mp member with rfl | later
    · -- The item does not come again.
      have nothing_later : rest.flatMap f = [] := by
        rw [List.flatMap_eq_nil_iff]
        exact fun other listed => others other (List.mem_cons_of_mem _ listed) fun same =>
          fresh (same ▸ listed)
      rw [nothing_later, List.append_nil]
    · rw [others first List.mem_cons_self fun same => fresh (same ▸ later),
        ih rest_distinct later fun other listed => others other (List.mem_cons_of_mem _ listed),
        List.nil_append]

/-- A map lists each key once. -/
theorem flatMap_toList_of_key {V β : Type} (map : Std.ExtTreeMap Nat V) (key : Nat)
    (items : V → List β) :
    (map.toList.flatMap fun pair => if pair.1 = key then items pair.2 else []) =
      (map[key]?.map items).getD [] := by
  have listed_iff : ∀ pair, pair ∈ map.toList ↔ map[pair.1]? = some pair.2 := fun pair =>
    Std.ExtTreeMap.mem_toList_iff_getElem?_eq_some
  cases found : map[key]? with
  | some value =>
    have distinct : map.toList.Nodup := by
      refine Std.ExtTreeMap.distinct_keys_toList.imp fun different same => different ?_
      rw [same, Nat.compare_eq_eq]
    rw [flatMap_eq_of_nodup distinct ((listed_iff (key, value)).mpr found), if_pos rfl]
    · rfl
    · -- Another pair with this key would have the same value.
      intro pair listed different
      refine if_neg fun same => different (Prod.ext same ?_)
      rw [listed_iff, same, found] at listed
      exact (Option.some.inj listed).symm
  | none =>
    rw [Option.map_none, Option.getD_none, List.flatMap_eq_nil_iff]
    intro pair listed
    refine if_neg fun same => ?_
    rw [listed_iff, same, found] at listed
    cases listed

theorem labelsBetween_adjacency (adjacency : Adjacency E) (start source target : Nat) :
    labelsBetween (adjacency.edges.map fun other =>
      { source := start, target := other.1, label := other.2 })
      source target = if start = source then adjacency[target]?.getD [] else [] := by
  split
  next here =>
    subst here
    have one_target : labelsBetween (adjacency.edges.map fun other =>
        { source := start, target := other.1, label := other.2 }) start target =
        adjacency.toList.flatMap fun pair => if pair.1 = target then id pair.2 else [] := by
      rw [Adjacency.edges, List.map_flatMap, labelsBetween_flatMap]
      refine List.flatMap_congr fun pair _ => ?_
      by_cases ends : pair.1 = target <;>
        simp [labelsBetween, List.filter_map, ends, Function.comp_def]
    rw [one_target, flatMap_toList_of_key, Option.map_id_fun, id]
  next elsewhere =>
    refine labelsBetween_eq_nil fun edge listed ends => elsewhere ?_
    obtain ⟨_, _, rfl⟩ := List.mem_map.mp listed
    exact ends.1

theorem countP_adjacency_edges (adjacency : Adjacency E) (key : Nat) :
    adjacency.edges.countP (·.1 = key) = (adjacency[key]?.getD []).length := by
  have labels := congrArg List.length (labelsBetween_adjacency adjacency key key key)
  rw [if_pos rfl] at labels
  rw [← labels]
  simp [labelsBetween, List.countP_eq_length_filter, List.filter_map, Function.comp_def]

theorem labelsBetween_edges (graph : Graph N E) (source target : Nat) :
    labelsBetween graph.edges source target = graph.edgeLabels source target := by
  have listed : graph.edges = graph.entries.toList.flatMap fun pair =>
      pair.2.succs.edges.map fun other =>
        { source := pair.1, target := other.1, label := other.2 } := rfl
  rw [listed, labelsBetween_flatMap, edgeLabels, succMap]
  simp only [labelsBetween_adjacency]
  -- The entry of the source is the only one that is left.
  rw [flatMap_toList_of_key graph.entries source fun entry => entry.succs[target]?.getD []]
  cases graph.entries[source]? <;> simp

/-- A sum over a map counts what is listed for its entries. -/
theorem length_flatMap_toList {V β : Type} (map : Std.ExtTreeMap Nat V) (size : V → Nat)
    (items : Nat × V → List β) (sized : ∀ pair, (items pair).length = size pair.2) :
    (map.toList.flatMap items).length = map.foldr (fun _ value total => size value + total) 0 := by
  rw [Std.ExtTreeMap.foldr_eq_foldr_toList]
  induction map.toList with
  | nil => rfl
  | cons pair rest ih => rw [List.flatMap_cons, List.length_append, ih, sized, List.foldr_cons]

private theorem length_adjacency_edges (adjacency : Adjacency E) :
    adjacency.edges.length = adjacency.edgeCount :=
  length_flatMap_toList adjacency List.length _ fun _ => List.length_map _

theorem length_edges (graph : Graph N E) : graph.edges.length = graph.edgeCount :=
  length_flatMap_toList graph.entries (fun entry => entry.succs.edgeCount) _ fun _ => by
    rw [List.length_map, length_adjacency_edges]

/-- Each edge is added behind those that are there already. -/
theorem edgeLabels_foldl_addEdge (edges : List (Edge E)) (start : Graph N E)
    (sources : ∀ edge ∈ edges, edge.source ∈ start) (source target : Nat) :
    (edges.foldl (fun graph edge => graph.addEdge edge.source edge.target edge.label)
      start).edgeLabels
      source target = start.edgeLabels source target ++ labelsBetween edges source target := by
  induction edges generalizing start with
  | nil => simp
  | cons edge rest ih =>
    obtain ⟨source_mem, sources⟩ := List.forall_mem_cons.mp sources
    rw [List.foldl_cons, ih _ fun edge listed => mem_addEdge.mpr (sources edge listed),
      edgeLabels_addEdge edge.label source_mem, labelsBetween_cons]
    split
    · rw [List.append_assoc, List.singleton_append]
    · rfl

private theorem edgeLabels_isolated (nodes : List (Nat × N)) (source target : Nat) :
    (isolated nodes : Graph N E).edgeLabels source target = [] := by
  rw [edgeLabels, succMap_isolated]
  simp

section

variable {nodes : List (Nat × N)} {graph : Graph N E} (succeeded : build nodes edges = .ok graph)
include succeeded

theorem edgeLabels_of_build (source target : Nat) :
    graph.edgeLabels source target = labelsBetween edges source target := by
  obtain ⟨ends, rfl⟩ := build_eq_ok_iff.mp succeeded
  rw [edgeLabels_foldl_addEdge edges _ fun edge listed => mem_isolated.mpr (ends edge listed).1,
    edgeLabels_isolated, List.nil_append]

/-- The edges of the graph are the given ones. -/
theorem mem_of_mem_edges_build {edge : Edge E} (member : edge ∈ graph.edges) : edge ∈ edges := by
  rw [mem_edges, edgeLabels_of_build succeeded] at member
  exact mem_labelsBetween.mp member

theorem edges_perm_of_build [DecidableEq E] : graph.edges.Perm edges :=
  perm_of_labelsBetween fun source target => by
    rw [labelsBetween_edges, edgeLabels_of_build succeeded]

end

end FlowIR.Graph
