import FlowIR.Graph.Traversal
import Mathlib.Tactic.Common

/-!
# Coherence of the two sides of a graph

Every edge is kept at its source and at its target. A graph is coherent if the two always say the
same, in order and with multiplicity, and if no list of labels is kept empty. Every operation on
graphs keeps this. Both ends of an edge of a coherent graph are nodes.
-/
namespace FlowIR.Graph

variable {N M E F : Type}

/-- The graphs that the operations lead to from the graph without nodes. -/
inductive Built : {N E : Type} → Graph N E → Prop
  | empty {N E : Type} : Built (∅ : Graph N E)
  | insertNode {N E : Type} {graph : Graph N E} (built : Built graph) (id : Nat) (label : N) :
      Built (graph.insertNode id label)
  | insertEdge {N E : Type} {graph next : Graph N E} (built : Built graph) {source target : Nat}
      {label : E} (inserted : graph.insertEdge source target label = .ok next) : Built next
  | removeEdges {N E : Type} {graph : Graph N E} (built : Built graph) (source target : Nat) :
      Built (graph.removeEdges source target)
  | removeNode {N E : Type} {graph : Graph N E} (built : Built graph) (id : Nat) :
      Built (graph.removeNode id)
  | decompose {N E : Type} {graph rest : Graph N E} (built : Built graph) {id : Nat}
      {context : Context N E} (split : graph.decompose id = some (context, rest)) : Built rest
  | mapNodes {N M E : Type} {graph : Graph N E} (built : Built graph) (f : Nat → N → M) :
      Built (graph.mapNodes f)
  | mapEdges {N E F : Type} {graph : Graph N E} (built : Built graph) (f : Nat → Nat → E → F) :
      Built (graph.mapEdges f)
  | reverse {N E : Type} {graph : Graph N E} (built : Built graph) : Built graph.reverse
  | merge {N E : Type} [DecidableEq E] {left right : Graph N E} (left_built : Built left)
      (right_built : Built right) : Built (left.merge right)

structure Coherent (graph : Graph N E) : Prop where
  mirrored : ∀ source target : Nat,
    (graph.succMap source)[target]? = (graph.predMap target)[source]?
  labelled : ∀ source target : Nat, (graph.succMap source)[target]? ≠ some []

/-- There is at least one edge between two nodes. -/
def HasEdge (graph : Graph N E) (source target : Nat) : Prop :=
  ∃ label, label ∈ graph.edgeLabels source target

/-! ### Lookups after each operation -/

private theorem mem_iff_isSome {graph : Graph N E} {id : Nat} :
    id ∈ graph ↔ (graph.entries[id]?).isSome :=
  Std.ExtTreeMap.mem_iff_isSome_getElem?

/-- The nodes are what has a label. -/
theorem mem_iff_label? {graph : Graph N E} {id : Nat} :
    id ∈ graph ↔ ∃ label, graph.label? id = some label := by
  rw [mem_iff_isSome, Option.isSome_iff_exists, label?]
  simp only [Option.map_eq_some_iff]
  constructor
  · rintro ⟨entry, found⟩
    exact ⟨entry.label, entry, found, rfl⟩
  · rintro ⟨_, entry, found, _⟩
    exact ⟨entry, found⟩

theorem not_mem_iff_eq_none {graph : Graph N E} {id : Nat} :
    id ∉ graph ↔ graph.entries[id]? = none := by
  rw [mem_iff_isSome, Option.not_isSome_iff_eq_none]

theorem exists_entry {graph : Graph N E} {id : Nat} (member : id ∈ graph) :
    ∃ entry, graph.entries[id]? = some entry :=
  Option.isSome_iff_exists.mp (mem_iff_isSome.mp member)

@[simp] theorem not_mem_empty (id : Nat) : id ∉ (∅ : Graph N E) :=
  Std.ExtTreeMap.not_mem_empty

private theorem succMap_of_entry {graph : Graph N E} {id : Nat} {entry : Entry N E}
    (found : graph.entries[id]? = some entry) : graph.succMap id = entry.succs := by
  simp [succMap, found]

private theorem succMap_of_not_mem {graph : Graph N E} {id : Nat} (absent : id ∉ graph) :
    graph.succMap id = ∅ := by
  simp [succMap, not_mem_iff_eq_none.mp absent]

private theorem predMap_of_not_mem {graph : Graph N E} {id : Nat} (absent : id ∉ graph) :
    graph.predMap id = ∅ := by
  simp [predMap, not_mem_iff_eq_none.mp absent]

@[simp] theorem succMap_empty (id : Nat) : (∅ : Graph N E).succMap id = ∅ :=
  succMap_of_not_mem (not_mem_empty id)

@[simp] theorem predMap_empty (id : Nat) : (∅ : Graph N E).predMap id = ∅ :=
  predMap_of_not_mem (not_mem_empty id)

private theorem entries_insertNode (graph : Graph N E) (id other : Nat) (label : N) :
    (graph.insertNode id label).entries[other]? =
      if id = other then
        some ((graph.entries[other]?.map fun entry => { entry with label }).getD
          { label, preds := ∅, succs := ∅ })
      else graph.entries[other]? := by
  simp only [insertNode, Std.ExtTreeMap.getElem?_alter, Nat.compare_eq_eq]
  by_cases same : id = other
  · subst same
    cases graph.entries[id]? <;> simp
  · simp [same]

@[simp] theorem mem_insertNode {graph : Graph N E} {id other : Nat} {label : N} :
    other ∈ graph.insertNode id label ↔ id = other ∨ other ∈ graph := by
  rw [mem_iff_isSome, mem_iff_isSome, entries_insertNode]
  by_cases same : id = other <;> simp [same]

@[simp] theorem succMap_insertNode (graph : Graph N E) (id other : Nat) (label : N) :
    (graph.insertNode id label).succMap other = graph.succMap other := by
  simp only [succMap, entries_insertNode]
  by_cases same : id = other
  · subst same
    cases graph.entries[id]? <;> simp
  · simp [same]

@[simp] theorem predMap_insertNode (graph : Graph N E) (id other : Nat) (label : N) :
    (graph.insertNode id label).predMap other = graph.predMap other := by
  simp only [predMap, entries_insertNode]
  by_cases same : id = other
  · subst same
    cases graph.entries[id]? <;> simp
  · simp [same]

private theorem entries_addEdge (graph : Graph N E) (source target other : Nat) (label : E) :
    (graph.addEdge source target label).entries[other]? =
      graph.entries[other]?.map fun entry =>
        { entry with
          succs := if source = other then entry.succs.addLabel target label else entry.succs
          preds := if target = other then entry.preds.addLabel source label else entry.preds } := by
  simp only [addEdge, addOutgoing, addIncoming, Std.ExtTreeMap.getElem?_modify, Nat.compare_eq_eq]
  -- A loop at the node changes both maps of one entry, so both ends are compared with it.
  by_cases at_target : target = other
  · subst at_target
    by_cases at_source : source = target
    · subst at_source
      cases graph.entries[source]? <;> simp
    · cases graph.entries[target]? <;> simp [at_source]
  · by_cases at_source : source = other
    · subst at_source
      cases graph.entries[source]? <;> simp [at_target]
    · cases graph.entries[other]? <;> simp [at_target, at_source]

@[simp] theorem mem_addEdge {graph : Graph N E} {source target other : Nat} {label : E} :
    other ∈ graph.addEdge source target label ↔ other ∈ graph := by
  rw [mem_iff_isSome, mem_iff_isSome, entries_addEdge, Option.isSome_map]

/-- An edge without one of its ends is refused before the graph has changed. -/
theorem insertEdgeInPlace_run (graph : Graph N E) (source target : Nat) (label : E) :
    (insertEdgeInPlace source target label).run graph =
      if source ∈ graph ∧ target ∈ graph then .ok () (graph.addEdge source target label)
      else .error { source, target } graph := by
  -- The graph is read, and what is done then depends on its nodes.
  change EStateM.run (if source ∈ graph ∧ target ∈ graph then _ else _) graph = _
  split <;> rfl

theorem insertEdge_eq (graph : Graph N E) (source target : Nat) (label : E) :
    graph.insertEdge source target label =
      if source ∈ graph ∧ target ∈ graph then .ok (graph.addEdge source target label)
      else .error { source, target } := by
  rw [insertEdge, insertEdgeInPlace_run]
  by_cases ends : source ∈ graph ∧ target ∈ graph <;> simp [ends]

private theorem getElem?_addLabel (adjacency : Adjacency E) (other target : Nat) (label : E) :
    (adjacency.addLabel target label)[other]? =
      if target = other then some (adjacency[other]?.getD [] ++ [label])
        else adjacency[other]? := by
  simp only [Adjacency.addLabel, Std.ExtTreeMap.getElem?_alter, Nat.compare_eq_eq]
  by_cases same : target = other
  · subst same
    simp
  · simp [same]

private theorem succMap_addEdge {graph : Graph N E} {source target : Nat} (label : E)
    (source_mem : source ∈ graph) (a b : Nat) :
    ((graph.addEdge source target label).succMap a)[b]? =
      if source = a ∧ target = b then some ((graph.succMap a)[b]?.getD [] ++ [label])
      else (graph.succMap a)[b]? := by
  by_cases at_source : source = a
  · subst at_source
    obtain ⟨entry, found⟩ := exists_entry source_mem
    simp [succMap, entries_addEdge, found, getElem?_addLabel]
  · cases found : graph.entries[a]? <;> simp [succMap, entries_addEdge, found, at_source]

private theorem predMap_addEdge {graph : Graph N E} {source target : Nat} (label : E)
    (target_mem : target ∈ graph) (a b : Nat) :
    ((graph.addEdge source target label).predMap b)[a]? =
      if source = a ∧ target = b then some ((graph.predMap b)[a]?.getD [] ++ [label])
      else (graph.predMap b)[a]? := by
  by_cases at_target : target = b
  · subst at_target
    obtain ⟨entry, found⟩ := exists_entry target_mem
    simp [predMap, entries_addEdge, found, getElem?_addLabel]
  · cases found : graph.entries[b]? <;> simp [predMap, entries_addEdge, found, at_target]

private theorem succMap_removeEdges (graph : Graph N E) (source target a b : Nat) :
    ((graph.removeEdges source target).succMap a)[b]? =
      if source = a ∧ target = b then none else (graph.succMap a)[b]? := by
  simp only [succMap, removeEdges, Std.ExtTreeMap.getElem?_modify, Nat.compare_eq_eq]
  -- The entry of the target is modified too, but only on its other side.
  by_cases at_source : source = a <;> by_cases at_target : target = a <;>
    cases found : graph.entries[a]? <;>
    simp_all [Std.ExtTreeMap.getElem?_erase]

private theorem predMap_removeEdges (graph : Graph N E) (source target a b : Nat) :
    ((graph.removeEdges source target).predMap b)[a]? =
      if source = a ∧ target = b then none else (graph.predMap b)[a]? := by
  simp only [predMap, removeEdges, Std.ExtTreeMap.getElem?_modify, Nat.compare_eq_eq]
  by_cases at_source : source = b <;> by_cases at_target : target = b <;>
    cases found : graph.entries[b]? <;>
    simp_all [Std.ExtTreeMap.getElem?_erase]

private theorem succMap_erase (graph : Graph N E) (id a : Nat) :
    (⟨graph.entries.erase id⟩ : Graph N E).succMap a = if id = a then ∅ else graph.succMap a := by
  by_cases here : id = a <;> simp [succMap, Std.ExtTreeMap.getElem?_erase, here]

private theorem predMap_erase (graph : Graph N E) (id b : Nat) :
    (⟨graph.entries.erase id⟩ : Graph N E).predMap b = if id = b then ∅ else graph.predMap b := by
  by_cases here : id = b <;> simp [predMap, Std.ExtTreeMap.getElem?_erase, here]

/-- A change that can be made twice without harm is made at every listed key, repeated or not. -/
theorem getElem?_foldl_modify {V : Type} (change : V → V)
    (idempotent : ∀ v, change (change v) = change v) (keys : List Nat) (map : Std.ExtTreeMap Nat V)
    (key : Nat) :
    (keys.foldl (fun map key => map.modify key change) map)[key]? =
      if key ∈ keys then map[key]?.map change else map[key]? := by
  induction keys generalizing map with
  | nil => simp
  | cons first rest ih =>
    rw [List.foldl_cons, ih, Std.ExtTreeMap.getElem?_modify]
    by_cases here : first = key
    · subst here
      cases map[first]? <;> simp [idempotent]
    · simp [here, Ne.symm here]

private theorem erase_erase (adjacency : Adjacency E) (id : Nat) :
    (adjacency.erase id).erase id = adjacency.erase id := by
  ext other : 1
  by_cases here : id = other <;> simp [Std.ExtTreeMap.getElem?_erase, here]

theorem entries_eraseIncoming (graph : Graph N E) (source other : Nat) (targets : List Nat) :
    (graph.eraseIncoming source targets).entries[other]? =
      if other ∈ targets then
        graph.entries[other]?.map fun entry => { entry with preds := entry.preds.erase source }
      else graph.entries[other]? :=
  getElem?_foldl_modify _ (by simp [erase_erase]) targets graph.entries other

theorem entries_eraseOutgoing (graph : Graph N E) (target other : Nat) (sources : List Nat) :
    (graph.eraseOutgoing target sources).entries[other]? =
      if other ∈ sources then
        graph.entries[other]?.map fun entry => { entry with succs := entry.succs.erase target }
      else graph.entries[other]? :=
  getElem?_foldl_modify _ (by simp [erase_erase]) sources graph.entries other

@[simp] theorem succMap_eraseIncoming (graph : Graph N E) (source id : Nat) (targets : List Nat) :
    (graph.eraseIncoming source targets).succMap id = graph.succMap id := by
  rw [succMap, entries_eraseIncoming]
  split <;> cases found : graph.entries[id]? <;> simp [succMap, found]

private theorem predMap_eraseIncoming (graph : Graph N E) (source a b : Nat) (targets : List Nat) :
    ((graph.eraseIncoming source targets).predMap b)[a]? =
      if source = a ∧ b ∈ targets then none else (graph.predMap b)[a]? := by
  rw [predMap, entries_eraseIncoming]
  by_cases listed : b ∈ targets <;> cases found : graph.entries[b]? <;>
    simp [predMap, found, listed, Std.ExtTreeMap.getElem?_erase]

@[simp] theorem predMap_eraseOutgoing (graph : Graph N E) (target id : Nat) (sources : List Nat) :
    (graph.eraseOutgoing target sources).predMap id = graph.predMap id := by
  rw [predMap, entries_eraseOutgoing]
  split <;> cases found : graph.entries[id]? <;> simp [predMap, found]

private theorem succMap_eraseOutgoing (graph : Graph N E) (target a b : Nat) (sources : List Nat) :
    ((graph.eraseOutgoing target sources).succMap a)[b]? =
      if target = b ∧ a ∈ sources then none else (graph.succMap a)[b]? := by
  rw [succMap, entries_eraseOutgoing]
  by_cases listed : a ∈ sources <;> cases found : graph.entries[a]? <;>
    simp [succMap, found, listed, Std.ExtTreeMap.getElem?_erase]

@[simp] theorem succMap_mapNodes (graph : Graph N E) (f : Nat → N → M) (id : Nat) :
    (graph.mapNodes f).succMap id = graph.succMap id := by
  cases found : graph.entries[id]? <;> simp [succMap, mapNodes, found]

@[simp] theorem predMap_mapNodes (graph : Graph N E) (f : Nat → N → M) (id : Nat) :
    (graph.mapNodes f).predMap id = graph.predMap id := by
  cases found : graph.entries[id]? <;> simp [predMap, mapNodes, found]

@[simp] theorem mem_reverse {graph : Graph N E} {id : Nat} : id ∈ graph.reverse ↔ id ∈ graph :=
  Std.ExtTreeMap.mem_map

@[simp] theorem succMap_reverse (graph : Graph N E) (id : Nat) :
    graph.reverse.succMap id = graph.predMap id := by
  cases found : graph.entries[id]? <;> simp [succMap, predMap, reverse, found]

@[simp] theorem predMap_reverse (graph : Graph N E) (id : Nat) :
    graph.reverse.predMap id = graph.succMap id := by
  cases found : graph.entries[id]? <;> simp [succMap, predMap, reverse, found]

theorem reverse_reverse (graph : Graph N E) : graph.reverse.reverse = graph := by
  have same : graph.reverse.reverse.entries = graph.entries := by
    ext id : 1
    cases found : graph.entries[id]? <;> simp [reverse, found]
  cases graph
  exact congrArg Graph.mk same

/-! ### Edges -/

theorem edgeLabels_addEdge {graph : Graph N E} {source target : Nat} (label : E)
    (source_mem : source ∈ graph) (a b : Nat) :
    (graph.addEdge source target label).edgeLabels a b =
      if source = a ∧ target = b then graph.edgeLabels a b ++ [label]
        else graph.edgeLabels a b := by
  simp only [edgeLabels, succMap_addEdge label source_mem]
  split <;> simp

theorem mem_adjacency_edges {adjacency : Adjacency E} {pair : Nat × E} :
    pair ∈ adjacency.edges ↔ pair.2 ∈ adjacency[pair.1]?.getD [] := by
  obtain ⟨other, label⟩ := pair
  simp only [Adjacency.edges, List.mem_flatMap, List.mem_map, Prod.exists,
    Std.ExtTreeMap.mem_toList_iff_getElem?_eq_some, Prod.mk.injEq]
  constructor
  · rintro ⟨_, labels, found, _, member, rfl, rfl⟩
    simpa [found] using member
  · intro member
    cases found : adjacency[other]? with
    | none => simp [found] at member
    | some labels => exact ⟨other, labels, found, label, by simpa [found] using member, rfl, rfl⟩

theorem mem_successors {graph : Graph N E} {id : Nat} {pair : Nat × E} :
    pair ∈ graph.successors id ↔ pair.2 ∈ graph.edgeLabels id pair.1 :=
  mem_adjacency_edges

theorem mem_edges {graph : Graph N E} {edge : Edge E} :
    edge ∈ graph.edges ↔ edge.label ∈ graph.edgeLabels edge.source edge.target := by
  obtain ⟨source, target, label⟩ := edge
  simp only [edges, List.mem_flatMap, List.mem_map, Prod.exists, mem_adjacency_edges,
    Std.ExtTreeMap.mem_toList_iff_getElem?_eq_some, Edge.mk.injEq]
  constructor
  · rintro ⟨_, entry, found, _, _, member, rfl, rfl, rfl⟩
    simpa [edgeLabels, succMap_of_entry found] using member
  · intro member
    cases found : graph.entries[source]? with
    | none => simp [edgeLabels, succMap, found] at member
    | some entry =>
      rw [edgeLabels, succMap_of_entry found] at member
      exact ⟨source, entry, found, target, label, member, rfl, rfl, rfl⟩

theorem hasEdge_iff_mem_edges {graph : Graph N E} {source target : Nat} :
    graph.HasEdge source target ↔
      ∃ edge ∈ graph.edges, edge.source = source ∧ edge.target = target := by
  constructor
  · rintro ⟨label, member⟩
    exact ⟨⟨source, target, label⟩, mem_edges.mpr member, rfl, rfl⟩
  · rintro ⟨edge, member, rfl, rfl⟩
    exact ⟨edge.label, mem_edges.mp member⟩

theorem HasEdge.source_mem {graph : Graph N E} {source target : Nat}
    (edge : graph.HasEdge source target) : source ∈ graph := by
  obtain ⟨label, member⟩ := edge
  by_contra absent
  simp [edgeLabels, succMap_of_not_mem absent] at member

namespace Coherent

variable {graph : Graph N E}

theorem hasEdge_iff_mem_succMap (coherent : graph.Coherent) {source target : Nat} :
    graph.HasEdge source target ↔ target ∈ graph.succMap source := by
  have labelled := coherent.labelled source target
  rw [HasEdge, edgeLabels, Std.ExtTreeMap.mem_iff_isSome_getElem?]
  cases found : (graph.succMap source)[target]? with
  | none => simp
  | some labels =>
    -- A list that is kept is not empty, so it holds the label of some edge.
    rw [found] at labelled
    simpa using List.exists_mem_of_ne_nil labels (by simpa using labelled)

theorem hasEdge_iff_mem_predMap (coherent : graph.Coherent) {source target : Nat} :
    graph.HasEdge source target ↔ source ∈ graph.predMap target := by
  rw [coherent.hasEdge_iff_mem_succMap, Std.ExtTreeMap.mem_iff_isSome_getElem?,
    coherent.mirrored, Std.ExtTreeMap.mem_iff_isSome_getElem?]

theorem mem_succIds (coherent : graph.Coherent) {source target : Nat} :
    target ∈ graph.succIds source ↔ graph.HasEdge source target := by
  rw [succIds, Std.ExtTreeMap.mem_keys, coherent.hasEdge_iff_mem_succMap]

theorem mem_predIds (coherent : graph.Coherent) {source target : Nat} :
    source ∈ graph.predIds target ↔ graph.HasEdge source target := by
  rw [predIds, Std.ExtTreeMap.mem_keys, coherent.hasEdge_iff_mem_predMap]

theorem target_mem (coherent : graph.Coherent) {source target : Nat}
    (edge : graph.HasEdge source target) : target ∈ graph := by
  have kept := coherent.hasEdge_iff_mem_predMap.mp edge
  by_contra absent
  simp [predMap_of_not_mem absent] at kept

/-- Coherent graphs are the same if the labels of their nodes and edges are. -/
theorem eq_of_labels {other : Graph N E} (coherent : graph.Coherent)
    (other_coherent : other.Coherent) (nodes : ∀ id, graph.label? id = other.label? id)
    (edges : ∀ source target, graph.edgeLabels source target = other.edgeLabels source target) :
    graph = other := by
  have outgoing : ∀ source target : Nat,
      (graph.succMap source)[target]? = (other.succMap source)[target]? := by
    intro source target
    -- No labels can only mean that there is no entry, since lists of labels are not empty.
    have same := edges source target
    have some_label := coherent.labelled source target
    have other_label := other_coherent.labelled source target
    rw [edgeLabels, edgeLabels] at same
    cases left : (graph.succMap source)[target]? <;>
      cases right : (other.succMap source)[target]? <;> simp_all
  have succs : ∀ id, graph.succMap id = other.succMap id := fun id =>
    Std.ExtTreeMap.ext_getElem? (outgoing id)
  have preds : ∀ id, graph.predMap id = other.predMap id := fun id => by
    apply Std.ExtTreeMap.ext_getElem?
    intro source
    rw [← coherent.mirrored, ← other_coherent.mirrored, outgoing]
  have entries : graph.entries = other.entries := by
    apply Std.ExtTreeMap.ext_getElem?
    intro id
    have same_label := nodes id
    have same_succs := succs id
    have same_preds := preds id
    rw [label?, label?] at same_label
    rw [succMap, succMap] at same_succs
    rw [predMap, predMap] at same_preds
    cases left : graph.entries[id]? with
    | none =>
      rw [left] at same_label
      exact (Option.map_eq_none_iff.mp same_label.symm).symm
    | some entry =>
      obtain ⟨found, right, same⟩ :=
        Option.map_eq_some_iff.mp (same_label.symm.trans (by rw [left]; rfl))
      cases entry
      cases found
      simp_all
  cases graph
  cases other
  simpa using entries

/-! ### Every operation keeps coherence -/

theorem empty : Coherent (∅ : Graph N E) where
  mirrored := by simp
  labelled := by simp

theorem insertNode (coherent : graph.Coherent) (id : Nat) (label : N) :
    (graph.insertNode id label).Coherent where
  mirrored := by simpa using coherent.mirrored
  labelled := by simpa using coherent.labelled

theorem addEdge (coherent : graph.Coherent) {source target : Nat} (label : E)
    (source_mem : source ∈ graph) (target_mem : target ∈ graph) :
    (graph.addEdge source target label).Coherent where
  mirrored := by
    intro a b
    rw [succMap_addEdge label source_mem, predMap_addEdge label target_mem, coherent.mirrored]
  labelled := by
    intro a b
    rw [succMap_addEdge label source_mem]
    split
    · simp
    · exact coherent.labelled a b

theorem insertEdge (coherent : graph.Coherent) {next : Graph N E} {source target : Nat} {label : E}
    (inserted : graph.insertEdge source target label = .ok next) : next.Coherent := by
  rw [insertEdge_eq] at inserted
  split at inserted
  next ends =>
    cases inserted
    exact coherent.addEdge label ends.1 ends.2
  · cases inserted

private theorem removeEdges (coherent : graph.Coherent) (source target : Nat) :
    (graph.removeEdges source target).Coherent where
  mirrored := by
    intro a b
    rw [succMap_removeEdges, predMap_removeEdges, coherent.mirrored]
  labelled := by
    intro a b
    rw [succMap_removeEdges]
    split
    · simp
    · exact coherent.labelled a b

/-- A node that keeps an edge to the removed one is listed as one of its predecessors, so the edge
is found there. -/
theorem succMap_removeNode (coherent : graph.Coherent) (id a b : Nat) :
    ((graph.removeNode id).succMap a)[b]? =
      if id = a ∨ id = b then none else (graph.succMap a)[b]? := by
  have known : a ∈ graph.predIds id ↔ (graph.succMap a)[id]?.isSome = true := by
    rw [coherent.mem_predIds, coherent.hasEdge_iff_mem_succMap,
      Std.ExtTreeMap.mem_iff_isSome_getElem?]
  simp only [Graph.removeNode, succMap_eraseOutgoing, succMap_eraseIncoming, succMap_erase, known]
  by_cases at_source : id = a
  · simp [at_source]
  · by_cases at_target : id = b
    · subst at_target
      cases found : (graph.succMap a)[id]? <;> simp [at_source, found]
    · simp [at_source, at_target]

private theorem predMap_removeNode (coherent : graph.Coherent) (id a b : Nat) :
    ((graph.removeNode id).predMap b)[a]? =
      if id = a ∨ id = b then none else (graph.predMap b)[a]? := by
  have known : b ∈ graph.succIds id ↔ (graph.predMap b)[id]?.isSome = true := by
    rw [coherent.mem_succIds, coherent.hasEdge_iff_mem_predMap,
      Std.ExtTreeMap.mem_iff_isSome_getElem?]
  simp only [Graph.removeNode, predMap_eraseOutgoing, predMap_eraseIncoming, predMap_erase, known]
  by_cases at_target : id = b
  · simp [at_target]
  · by_cases at_source : id = a
    · subst at_source
      cases found : (graph.predMap b)[id]? <;> simp [at_target, found]
    · simp [at_source, at_target]

theorem removeNode (coherent : graph.Coherent) (id : Nat) : (graph.removeNode id).Coherent where
  mirrored := by
    intro a b
    rw [coherent.succMap_removeNode, coherent.predMap_removeNode, coherent.mirrored]
  labelled := by
    intro a b
    rw [coherent.succMap_removeNode]
    split
    · simp
    · exact coherent.labelled a b

private theorem mapNodes (coherent : graph.Coherent) (f : Nat → N → M) :
    (graph.mapNodes f).Coherent where
  mirrored := by simpa using coherent.mirrored
  labelled := by simpa using coherent.labelled

theorem reverse (coherent : graph.Coherent) : graph.reverse.Coherent where
  mirrored := by
    intro a b
    rw [succMap_reverse, predMap_reverse, coherent.mirrored]
  labelled := by
    intro a b
    rw [succMap_reverse, ← coherent.mirrored]
    exact coherent.labelled b a

end Coherent

/-- A fold over a list keeps what each of its steps keeps. -/
theorem foldl_keeps {α β : Type} (property : β → Prop) (step : β → α → β) (items : List α)
    (start : β) (holds : property start)
    (keeps : ∀ current, ∀ item ∈ items, property current → property (step current item)) :
    property (items.foldl step start) := by
  induction items generalizing start with
  | nil => exact holds
  | cons item rest ih =>
    apply ih (step start item) (keeps start item (by simp) holds)
    intro current other member
    exact keeps current other (by simp [member])

/-- The same for a fold that may stop. -/
theorem foldlM_keeps {ε α β : Type} (property : β → Prop) {step : β → α → Except ε β}
    {items : List α} {start result : β} (succeeded : items.foldlM step start = .ok result)
    (holds : property start)
    (keeps : ∀ current next, ∀ item ∈ items, property current → step current item = .ok next →
      property next) :
    property result := by
  induction items generalizing start with
  | nil =>
    cases succeeded
    exact holds
  | cons item rest ih =>
    rw [List.foldlM_cons] at succeeded
    cases stepped : step start item with
    | error error => simp [stepped, bind, Except.bind] at succeeded
    | ok next =>
      simp only [stepped, bind, Except.bind] at succeeded
      apply ih succeeded (keeps start next item (by simp) holds stepped)
      intro current next other member
      exact keeps current next other (by simp [member])

/-- The nodes of a list without any edges. -/
def isolated (nodes : List (Nat × N)) : Graph N E :=
  nodes.foldl (fun graph (id, label) => graph.insertNode id label) ∅

theorem succMap_isolated (nodes : List (Nat × N)) (id : Nat) :
    (isolated nodes : Graph N E).succMap id = ∅ := by
  apply foldl_keeps (fun graph : Graph N E => graph.succMap id = ∅)
  · simp
  · intro graph node _ edgeless
    simpa using edgeless

theorem Coherent.isolated (nodes : List (Nat × N)) : (isolated nodes : Graph N E).Coherent := by
  apply foldl_keeps (fun graph : Graph N E => graph.Coherent)
  · exact Coherent.empty
  · intro graph node _ coherent
    exact coherent.insertNode node.1 node.2

private theorem mem_foldl_insertNode (nodes : List (Nat × N)) (start : Graph N E) (id : Nat) :
    id ∈ nodes.foldl (fun graph (id, label) => graph.insertNode id label) start ↔
      id ∈ nodes.map Prod.fst ∨ id ∈ start := by
  induction nodes generalizing start with
  | nil => simp
  | cons node rest ih =>
    rw [List.foldl_cons, ih, mem_insertNode, List.map_cons, List.mem_cons]
    constructor
    · rintro (in_rest | rfl | in_start)
      · exact Or.inl (Or.inr in_rest)
      · exact Or.inl (Or.inl rfl)
      · exact Or.inr in_start
    · rintro ((rfl | in_rest) | in_start)
      · exact Or.inr (Or.inl rfl)
      · exact Or.inl in_rest
      · exact Or.inr (Or.inr in_start)

theorem mem_isolated {nodes : List (Nat × N)} {id : Nat} :
    id ∈ (isolated nodes : Graph N E) ↔ id ∈ nodes.map Prod.fst := by
  simp [isolated, mem_foldl_insertNode]

theorem map_fst_nodes (graph : Graph N E) : graph.nodes.map Prod.fst = graph.ids := by
  simp only [nodes, ids, List.map_map]
  exact Std.ExtTreeMap.map_fst_toList_eq_keys

theorem mem_isolated_nodes {graph : Graph N E} {id : Nat} :
    id ∈ (isolated graph.nodes : Graph N F) ↔ id ∈ graph := by
  rw [mem_isolated, map_fst_nodes, mem_ids]

/-! ### Labels of nodes -/

theorem mem_nodes {graph : Graph N E} {node : Nat × N} :
    node ∈ graph.nodes ↔ graph.label? node.1 = some node.2 := by
  obtain ⟨id, label⟩ := node
  simp only [nodes, List.mem_map, Prod.exists, Std.ExtTreeMap.mem_toList_iff_getElem?_eq_some,
    Prod.mk.injEq, label?, Option.map_eq_some_iff]
  constructor
  · rintro ⟨_, entry, found, rfl, rfl⟩
    exact ⟨entry, found, rfl⟩
  · rintro ⟨entry, found, rfl⟩
    exact ⟨id, entry, found, rfl, rfl⟩

theorem label?_insertNode (graph : Graph N E) (id other : Nat) (label : N) :
    (graph.insertNode id label).label? other = if id = other then some label
      else graph.label? other := by
  rw [label?, entries_insertNode]
  by_cases same : id = other
  · subst same
    cases found : graph.entries[id]? <;> simp
  · simp [same, label?]

theorem label?_addEdge (graph : Graph N E) (source target id : Nat) (label : E) :
    (graph.addEdge source target label).label? id = graph.label? id := by
  rw [label?, entries_addEdge, Option.map_map]
  rfl

private theorem label?_foldl_insertNode (nodes : List (Nat × N)) (start : Graph N E) (id : Nat)
    (label : N) (distinct : (nodes.map Prod.fst).Nodup) :
    (nodes.foldl (fun graph (id, label) => graph.insertNode id label) start).label? id =
      some label ↔
      (id, label) ∈ nodes ∨ id ∉ nodes.map Prod.fst ∧ start.label? id = some label := by
  induction nodes generalizing start with
  | nil => simp
  | cons node rest ih =>
    obtain ⟨first, first_label⟩ := node
    obtain ⟨fresh, rest_distinct⟩ := List.nodup_cons.mp distinct
    rw [List.foldl_cons, ih _ rest_distinct, label?_insertNode]
    by_cases here : first = id
    · -- The numbers are distinct, so no later insertion changes the label.
      subst here
      have not_later : (first, label) ∉ rest := fun member =>
        fresh (List.mem_map.mpr ⟨(first, label), member, rfl⟩)
      simp only [not_later, false_or, if_true, List.mem_cons, Prod.mk.injEq, true_and, or_false,
        List.map_cons, true_or, not_true, false_and]
      exact ⟨fun both => (Option.some.inj both.2).symm,
        fun same => ⟨fresh, congrArg some same.symm⟩⟩
    · simp [here, Ne.symm here]

theorem label?_isolated_nodes (graph : Graph N E) (id : Nat) :
    (isolated graph.nodes : Graph N F).label? id = graph.label? id := by
  have distinct : (graph.nodes.map Prod.fst).Nodup := by
    rw [map_fst_nodes]
    exact Std.ExtTreeMap.nodup_keys
  ext label
  have unlabelled : (∅ : Graph N F).label? id = none := by
    rw [label?, not_mem_iff_eq_none.mp (not_mem_empty id), Option.map_none]
  rw [isolated, label?_foldl_insertNode _ _ _ _ distinct, mem_nodes, unlabelled]
  simp

private theorem mem_insertMissing {graph : Graph N E} {node : Nat × N} {id : Nat} :
    id ∈ graph.insertMissing node ↔ id = node.1 ∨ id ∈ graph := by
  rw [insertMissing]
  split
  next known => exact ⟨Or.inr, fun either => either.elim (fun same => same ▸ known) fun old => old⟩
  next => rw [mem_insertNode, @eq_comm _ node.1]

private theorem mem_foldl_insertMissing {graph : Graph N E} {nodes : List (Nat × N)} {id : Nat} :
    id ∈ nodes.foldl insertMissing graph ↔ id ∈ graph ∨ id ∈ nodes.map Prod.fst := by
  induction nodes generalizing graph with
  | nil => simp
  | cons node rest ih =>
    rw [List.foldl_cons, ih, mem_insertMissing, List.map_cons, List.mem_cons,
      or_assoc, or_left_comm]

theorem mem_withNodes (left : Graph N E) {right : Graph N E} {id : Nat} (member : id ∈ right) :
    id ∈ right.nodes.foldl insertMissing left := by
  rw [mem_foldl_insertMissing, map_fst_nodes, mem_ids]
  exact Or.inr member

/-- The nodes are listed by number, so their labels determine the list. -/
theorem nodes_eq_of_label?_eq {left : Graph N E} {right : Graph N F}
    (same : ∀ id, left.label? id = right.label? id) : left.nodes = right.nodes := by
  have same_labels : (left.entries.map fun _ entry => entry.label) =
      right.entries.map fun _ entry => entry.label := by
    ext id : 1
    simpa [label?] using same id
  simpa [nodes] using congrArg Std.ExtTreeMap.toList same_labels

namespace Coherent

variable {graph : Graph N E}

/-- Adding edges between nodes keeps the nodes and coherence. -/
theorem foldl_addEdge {α : Type} (items : List α) (start : Graph N E) (coherent : start.Coherent)
    (step : Graph N E → α → Graph N E)
    (steps : ∀ current, ∀ item ∈ items, step current item = current ∨
      ∃ source target label, source ∈ start ∧ target ∈ start ∧
        step current item = current.addEdge source target label) :
    (items.foldl step start).Coherent ∧ ∀ id, id ∈ items.foldl step start ↔ id ∈ start := by
  apply foldl_keeps fun current : Graph N E => current.Coherent ∧ ∀ id, id ∈ current ↔ id ∈ start
  · exact ⟨coherent, fun id => Iff.rfl⟩
  · rintro current item member ⟨current_coherent, same_nodes⟩
    rcases steps current item member
      with kept | ⟨source, target, label, source_mem, target_mem, added⟩
    · rw [kept]
      exact ⟨current_coherent, same_nodes⟩
    · rw [added]
      refine ⟨current_coherent.addEdge label ?_ ?_, ?_⟩
      · exact (same_nodes source).mpr source_mem
      · exact (same_nodes target).mpr target_mem
      · simpa using same_nodes

theorem edge_ends (coherent : graph.Coherent) {edge : Edge E} (member : edge ∈ graph.edges) :
    edge.source ∈ graph ∧ edge.target ∈ graph := by
  have has_edge : graph.HasEdge edge.source edge.target :=
    hasEdge_iff_mem_edges.mpr ⟨edge, member, rfl, rfl⟩
  exact ⟨has_edge.source_mem, coherent.target_mem has_edge⟩

theorem mapEdges (coherent : graph.Coherent) (f : Nat → Nat → E → F) :
    (graph.mapEdges f).Coherent := by
  refine (foldl_addEdge graph.edges _ (Coherent.isolated graph.nodes) _ ?_).1
  intro current edge member
  have ends := coherent.edge_ends member
  exact Or.inr ⟨edge.source, edge.target, f edge.source edge.target edge.label,
    mem_isolated_nodes.mpr ends.1, mem_isolated_nodes.mpr ends.2, rfl⟩

private theorem insertMissing (coherent : graph.Coherent) (node : Nat × N) :
    (graph.insertMissing node).Coherent := by
  rw [Graph.insertMissing]
  split
  · exact coherent
  · exact coherent.insertNode node.1 node.2

theorem merge [DecidableEq E] {left right : Graph N E} (left_coherent : left.Coherent)
    (right_coherent : right.Coherent) : (left.merge right).Coherent := by
  have joined_coherent : (right.nodes.foldl Graph.insertMissing left).Coherent :=
    foldl_keeps Coherent _ right.nodes left left_coherent fun _ node _ coherent =>
      coherent.insertMissing node
  apply (foldl_addEdge right.edges _ joined_coherent _ ?_).1
  -- An edge of the right graph is skipped if its label is there already, and inserted otherwise.
  intro current edge member
  obtain ⟨source_mem, target_mem⟩ := right_coherent.edge_ends member
  rw [addMissing]
  split
  · exact Or.inl rfl
  · exact Or.inr ⟨edge.source, edge.target, edge.label, mem_withNodes left source_mem,
      mem_withNodes left target_mem, rfl⟩

end Coherent

theorem Built.coherent {graph : Graph N E} (built : graph.Built) : graph.Coherent := by
  induction built with
  | empty => exact Coherent.empty
  | insertNode _ id label ih => exact ih.insertNode id label
  | insertEdge _ inserted ih => exact ih.insertEdge inserted
  | removeEdges _ source target ih => exact ih.removeEdges source target
  | removeNode _ id ih => exact ih.removeNode id
  | @decompose _ _ graph rest _ id context split ih =>
    obtain ⟨_, _, same⟩ := Option.map_eq_some_iff.mp split
    rw [← (Prod.mk.inj same).2]
    exact ih.removeNode id
  | mapNodes _ f ih => exact ih.mapNodes f
  | mapEdges _ f ih => exact ih.mapEdges f
  | reverse _ ih => exact ih.reverse
  | merge _ _ left_ih right_ih => exact left_ih.merge right_ih

theorem Built.addEdge {graph : Graph N E} (built : graph.Built) (source target : Nat) (label : E)
    (source_mem : source ∈ graph) (target_mem : target ∈ graph) :
    (graph.addEdge source target label).Built :=
  built.insertEdge ((insertEdge_eq ..).trans (if_pos ⟨source_mem, target_mem⟩))

/-- Whatever operations led to a graph, a node keeps about its edges to another one exactly what the
other one keeps about them, and it keeps nothing where there is no edge. Both ends of an edge are
nodes. An edge that lacks an end is refused, and then the graph is what it was before. -/
theorem Built.ends_agree (graph : Graph N E) (built : graph.Built) :
    (∀ a b : Nat, (graph.succMap a)[b]? = (graph.predMap b)[a]?) ∧
    (∀ (a b : Nat) (labels : List E),
      (graph.succMap a)[b]? = some labels ∨ (graph.predMap b)[a]? = some labels →
        labels ≠ [] ∧ a ∈ graph ∧ b ∈ graph) ∧
    ∀ (source target : Nat) (label : E),
      ((∃ missing left, (insertEdgeInPlace source target label).run graph = .error missing left) ↔
        source ∉ graph ∨ target ∉ graph) ∧
      ∀ missing left, (insertEdgeInPlace source target label).run graph = .error missing left →
        missing = { source, target } ∧ left = graph := by
  have coherent := built.coherent
  refine ⟨coherent.mirrored, ?_, ?_⟩
  · intro a b labels kept
    have at_source : (graph.succMap a)[b]? = some labels :=
      kept.elim id fun at_target => (coherent.mirrored a b).trans at_target
    -- Labels are kept for edges only.
    have edge : graph.HasEdge a b := by
      rw [coherent.hasEdge_iff_mem_succMap, Std.ExtTreeMap.mem_iff_isSome_getElem?, at_source]
      rfl
    refine ⟨?_, edge.source_mem, coherent.target_mem edge⟩
    rintro rfl
    exact coherent.labelled a b at_source
  · intro source target label
    rw [insertEdgeInPlace_run, ← not_and_or]
    by_cases ends : source ∈ graph ∧ target ∈ graph
    · simp [ends]
    · rw [if_neg ends]
      refine ⟨⟨fun _ => ends, fun _ => ⟨_, _, rfl⟩⟩, fun missing left same => ?_⟩
      cases same
      exact ⟨rfl, rfl⟩

/-- Two edges side by side, a loop at their target, and what is left of a third node. -/
def tangled : Graph Unit Nat :=
  (((((((((∅ : Graph Unit Nat).insertNode 0 ()).insertNode 1 ()).insertNode 2 ()).addEdge
    0 1 5).addEdge 1 1 6).addEdge 0 1 5).addEdge 2 1 7).addEdge 1 2 8).removeNode 2

theorem tangled_ends_agree :
    tangled.Built ∧ (tangled.succMap 0)[1]? = some [5, 5] ∧ (tangled.predMap 1)[0]? = some [5, 5] ∧
      (tangled.succMap 1).toList = [(1, [6])] ∧
      (tangled.predMap 1).toList = [(0, [5, 5]), (1, [6])] ∧
      (insertEdgeInPlace 0 2 9).run tangled = .error { source := 0, target := 2 } tangled := by
  have built : tangled.Built := by
    have empty : (∅ : Graph Unit Nat).Built := .empty
    have nodes := ((empty.insertNode 0 ()).insertNode 1 ()).insertNode 2 ()
    have looped := (nodes.addEdge 0 1 5 (by decide) (by decide)).addEdge 1 1 6
      (by decide) (by decide)
    have joined := (looped.addEdge 0 1 5 (by decide) (by decide)).addEdge 2 1 7
      (by decide) (by decide)
    exact (joined.addEdge 1 2 8 (by decide) (by decide)).removeNode 2
  obtain ⟨same, _, refused⟩ := Built.ends_agree tangled built
  have outgoing : (tangled.succMap 0)[1]? = some [5, 5] := by decide +kernel
  obtain ⟨missing, left, failed⟩ := (refused 0 2 9).1.mpr (Or.inr (by decide +kernel))
  obtain ⟨rfl, rfl⟩ := (refused 0 2 9).2 missing left failed
  exact ⟨built, outgoing, (same 0 1).symm.trans outgoing, by decide +kernel, by decide +kernel,
    failed⟩

/-! ### Graphs of given nodes and edges -/

theorem foldlM_insertEdge_eq_ok_iff (edges : List (Edge E)) (start graph : Graph N E) :
    edges.foldlM (fun graph edge => graph.insertEdge edge.source edge.target edge.label) start =
      .ok graph ↔
      (∀ edge ∈ edges, edge.source ∈ start ∧ edge.target ∈ start) ∧
        edges.foldl (fun graph edge => graph.addEdge edge.source edge.target edge.label) start =
          graph := by
  induction edges generalizing start with
  | nil => simp [pure, Except.pure]
  | cons edge rest ih =>
    rw [List.foldlM_cons, List.foldl_cons, List.forall_mem_cons]
    by_cases ends : edge.source ∈ start ∧ edge.target ∈ start
    · have inserted : start.insertEdge edge.source edge.target edge.label =
          .ok (start.addEdge edge.source edge.target edge.label) :=
        (insertEdge_eq ..).trans (if_pos ends)
      simp only [inserted, bind, Except.bind, ih, mem_addEdge, ends, true_and, and_self]
    · have refused : start.insertEdge edge.source edge.target edge.label =
          .error { source := edge.source, target := edge.target } :=
        (insertEdge_eq ..).trans (if_neg ends)
      simp [refused, bind, Except.bind, ends]

/-- Nothing can be missing but an end of an edge. -/
theorem build_eq_ok_iff {nodes : List (Nat × N)} {edges : List (Edge E)} {graph : Graph N E} :
    build nodes edges = .ok graph ↔
      (∀ edge ∈ edges, edge.source ∈ nodes.map Prod.fst ∧ edge.target ∈ nodes.map Prod.fst) ∧
        edges.foldl (fun graph edge => graph.addEdge edge.source edge.target edge.label)
          (isolated nodes) = graph := by
  simp only [← mem_isolated (E := E)]
  exact foldlM_insertEdge_eq_ok_iff edges (isolated nodes) graph

theorem built_build {nodes : List (Nat × N)} {edges : List (Edge E)} {graph : Graph N E}
    (succeeded : build nodes edges = .ok graph) : graph.Built := by
  obtain ⟨ends, rfl⟩ := build_eq_ok_iff.mp succeeded
  have isolated_built : (isolated nodes : Graph N E).Built := by
    apply foldl_keeps (fun graph : Graph N E => graph.Built)
    · exact .empty
    · intro graph node _ built
      exact built.insertNode node.1 node.2
  -- The nodes stay the same, so the ends of the edges that are still to come are nodes.
  refine (foldl_keeps (fun graph : Graph N E => graph.Built ∧ ∀ id, id ∈ graph ↔
    id ∈ nodes.map Prod.fst) _ edges _ ⟨isolated_built, fun _ => mem_isolated⟩ ?_).1
  rintro graph edge member ⟨built, same_nodes⟩
  have edge_ends := ends edge member
  rw [← same_nodes, ← same_nodes] at edge_ends
  exact ⟨built.addEdge _ _ edge.label edge_ends.1 edge_ends.2,
    fun id => mem_addEdge.trans (same_nodes id)⟩

theorem label?_foldl_addEdge (edges : List (Edge E)) (start : Graph N E) (id : Nat) :
    (edges.foldl (fun graph edge => graph.addEdge edge.source edge.target edge.label) start).label?
      id = start.label? id := by
  apply foldl_keeps fun graph : Graph N E => graph.label? id = start.label? id
  · rfl
  · intro graph edge _ same
    rw [label?_addEdge, same]

theorem label?_of_build {nodes : List (Nat × N)} {edges : List (Edge E)} {graph : Graph N E}
    (succeeded : build nodes edges = .ok graph) (id : Nat) :
    graph.label? id = (isolated nodes : Graph N E).label? id := by
  obtain ⟨_, rfl⟩ := build_eq_ok_iff.mp succeeded
  exact label?_foldl_addEdge edges (isolated nodes) id

end FlowIR.Graph
