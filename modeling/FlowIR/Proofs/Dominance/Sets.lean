import FlowIR.Proofs.Dataflow.GreatestSolution
import FlowIR.Proofs.Dominance.Forest
import FlowIR.Proofs.Graph.Bounds

/-!
# Dominator sets and dominator forests agree

The dataflow problem asks at every node for what the facts of all predecessors share, and starts
from sets that hold everything. Two facts about its runs give the dominators. No visit ever drops a
dominator, since it lies on every way through every predecessor that is reached, and the set of a
predecessor that is not reached stays full. And where the equations hold, a set holds nothing else:
along a walk from a root nothing is added but the nodes of the walk. The forest is built in an
entirely different way, but it has been compared with the walks as well.
-/
namespace FlowIR

/-! ### Sets of bits -/

namespace BitSet

private theorem mem_full {size x : Nat} : x ∈ (full size).members ↔ x < size := by
  simp [full, Std.ExtTreeSet.mem_ofList]

/-- A set of its universe that lacks nothing is full. -/
theorem eq_full {set : BitSet} {size : Nat} (same_size : set.size = size)
    (bounded : ∀ x ∈ set.members, x < size)
    (complete : ∀ x < size, x ∈ set.members) : set = full size := by
  have same_members : set.members = (full size).members := by
    ext x
    rw [mem_full]
    exact ⟨bounded x, complete x⟩
  cases set
  simp_all [full]

private theorem size_foldl_inter (sets : List BitSet) (start : BitSet) :
    (sets.foldl inter start).size = start.size := by
  induction sets generalizing start with
  | nil => rfl
  | cons first rest ih => exact ih (start.inter first)

private theorem mem_foldl_inter {sets : List BitSet} {start : BitSet} {x : Nat} :
    x ∈ (sets.foldl inter start).members ↔ x ∈ start.members ∧ ∀ set ∈ sets, x ∈ set.members := by
  induction sets generalizing start with
  | nil => simp
  | cons first rest ih => simp [ih, inter, Std.ExtTreeSet.mem_inter_iff, and_assoc]

end BitSet

variable {N E : Type} {graph : Graph N E} {entry : Nat} {roots : List Nat}

/-! ### One visit -/

/-- Walks to nodes start at the entry and at the nodes without predecessors. -/
def Graph.IsRoot (graph : Graph N E) (entry id : Nat) : Prop :=
  id ∈ graph ∧ (id = entry ∨ graph.predecessors id = [])

/-- Where the facts after the predecessors are these, a visit finds the node itself and, unless the
node is a root, what all of its predecessors share. -/
theorem mem_dominatorProblem_transfer (coherent : graph.Coherent) {id x : Nat} {label : N}
    (facts : Nat → BitSet) (member : id ∈ graph) :
    x ∈ ((dominatorProblem graph entry).transfer ((dominatorProblem graph entry).inputOf facts id)
        id label (Direction.forward.incoming graph id)).members ↔
      x = id ∨ ¬ graph.IsRoot entry id ∧ x < graph.idBound ∧
        ∀ other, graph.HasEdge other id → x ∈ (facts other).members := by
  simp only [dominatorProblem, BitSet.insert, Std.ExtTreeSet.mem_insert, Nat.compare_eq_eq,
    Graph.IsRoot, member, true_and, List.isEmpty_iff, Direction.incoming]
  rw [@eq_comm _ id x]
  apply or_congr_right
  by_cases root : id = entry ∨ graph.predecessors id = []
  · simp [root, BitSet.empty]
  · rw [if_neg root]
    simp only [root, not_false_eq_true, true_and]
    rw [not_or] at root
    -- There is a predecessor, so what flows in is the intersection of the facts of all of them.
    cases edges : graph.predecessors id with
    | nil => exact absurd edges root.2
    | cons first rest =>
      have sources : ∀ other, graph.HasEdge other id ↔ ∃ edge ∈ first :: rest, edge.1 = other := by
        intro other
        rw [← Direction.feeds_forward_iff coherent, Direction.Feeds, Direction.incoming, edges]
        constructor
        · rintro ⟨label, listed⟩
          exact ⟨_, listed, rfl⟩
        · rintro ⟨edge, listed, rfl⟩
          exact ⟨edge.2, listed⟩
      simp only [Problem.inputOf, Direction.incoming, edges, MeetDomain.meetAll, BitSet.domain,
        BitSet.mem_foldl_inter, BitSet.mem_full, List.mem_map, forall_exists_index, and_imp,
        forall_apply_eq_imp_iff₂, sources]

private theorem size_dominatorProblem_transfer (facts : Nat → BitSet) (id : Nat) (label : N) :
    ((dominatorProblem graph entry).transfer ((dominatorProblem graph entry).inputOf facts id) id
      label (Direction.forward.incoming graph id)).size = graph.idBound := by
  simp only [dominatorProblem, BitSet.insert]
  split
  · rfl
  · rw [Problem.inputOf]
    split
    · rfl
    · exact BitSet.size_foldl_inter _ _

/-! ### No dominator is dropped -/

/-- The set is one of the universe, and it holds at least the dominators of a node that is reached
and everything at a node that is not. -/
structure KeepsDominators (graph : Graph N E) (roots : List Nat) (id : Nat)
    (set : BitSet) : Prop where
  size : set.size = graph.idBound
  bounded : ∀ x ∈ set.members, x < graph.idBound
  complete : ∀ x < graph.idBound, (graph.ReachedFrom roots id → graph.Dominates roots x id) →
    x ∈ set.members

private theorem keepsDominators_full (graph : Graph N E) (roots : List Nat) (id : Nat) :
    KeepsDominators graph roots id (.full graph.idBound) where
  size := rfl
  bounded := fun _ inside => BitSet.mem_full.mp inside
  complete := fun _ bounded _ => BitSet.mem_full.mpr bounded

private theorem Graph.ReachedFrom.next (coherent : graph.Coherent) {id next : Nat}
    (reached : graph.ReachedFrom roots id) (edge : graph.HasEdge id next) :
    graph.ReachedFrom roots next := by
  obtain ⟨root, listed, path, walk⟩ := reached
  exact ⟨root, listed, _, walk.snoc edge (coherent.target_mem edge)⟩

/-- What dominates a node and is not the node itself dominates every predecessor that is reached. -/
theorem Graph.Dominates.predecessor (coherent : graph.Coherent) {x other id : Nat}
    (dominates : graph.Dominates roots x id) (different : x ≠ id) (edge : graph.HasEdge other id)
    (reached : graph.ReachedFrom roots other) : graph.Dominates roots x other := by
  refine ⟨reached, fun root listed path walk => ?_⟩
  have onwards := dominates.2 root listed _ (walk.snoc edge (coherent.target_mem edge))
  simpa [different] using onwards

section

variable (coherent : graph.Coherent) (roots_iff : ∀ id, id ∈ roots ↔ graph.IsRoot entry id)
include coherent roots_iff

private theorem keepsDominators_transfer {facts : Nat → BitSet} {id : Nat} {label : N}
    (member : id ∈ graph)
    (before : ∀ other, other ∈ graph → KeepsDominators graph roots other (facts other)) :
    KeepsDominators graph roots id
      ((dominatorProblem graph entry).transfer ((dominatorProblem graph entry).inputOf facts id) id
        label (Direction.forward.incoming graph id)) where
  size := size_dominatorProblem_transfer facts id label
  bounded := by
    intro x inside
    rcases (mem_dominatorProblem_transfer coherent facts member).mp inside
      with rfl | ⟨_, bounded, _⟩
    · exact Graph.lt_idBound member
    · exact bounded
  complete := by
    intro x bounded dominates
    rw [mem_dominatorProblem_transfer coherent facts member]
    by_cases same : x = id
    · exact Or.inl same
    · refine Or.inr ⟨fun root => same ?_, bounded, fun other edge => ?_⟩
      · -- The walk that consists of a root alone has no other node.
        have listed := (roots_iff id).mpr root
        have through := (dominates ⟨id, listed, Graph.reaches_refl member⟩).2 id listed [id]
          (.single member)
        simpa using through
      · refine (before other edge.source_mem).complete x bounded fun reached => ?_
        exact (dominates (reached.next coherent edge)).predecessor coherent same edge reached

private theorem keepsDominators_run (nodeLimit fuel : Nat) :
    ∀ id, id ∈ graph → KeepsDominators graph roots id ((dominatorProblem graph entry).factsOf
      ((dominatorProblem graph entry).run nodeLimit fuel).outputs id) := by
  refine Problem.runFrom_keeps (fun run => ∀ id, id ∈ graph →
    KeepsDominators graph roots id ((dominatorProblem graph entry).factsOf run.outputs id)) ?_ _ ?_
  · intro run id rest before _
    refine @Problem.visit_forall N E BitSet _ (dominatorProblem graph entry)
      (KeepsDominators graph roots) run id rest before fun label labelled => ?_
    exact keepsDominators_transfer coherent roots_iff (Graph.mem_iff_label?.mpr ⟨label, labelled⟩)
      before
  · intro id _
    rw [Problem.factsOf_start]
    exact keepsDominators_full graph roots id

/-! ### Nothing else is left -/

omit roots_iff in
/-- Along a walk the facts only lose elements or gain the nodes of the walk. -/
theorem mem_path_or_mem_first {facts : Nat → BitSet}
    (solution : (dominatorProblem graph entry).IsSolution facts) {first last x : Nat}
    {path : List Nat} (walk : graph.Walk first last path) (inside : x ∈ (facts last).members) :
    x ∈ path ∨ x ∈ (facts first).members := by
  induction walk with
  | single _ => exact Or.inr inside
  | @cons first second last path edge rest ih =>
    rcases ih inside with on_rest | at_second
    · exact Or.inl (List.mem_cons_of_mem _ on_rest)
    · obtain ⟨label, labelled⟩ := Graph.mem_iff_label?.mp rest.first_mem_graph
      rw [solution second label labelled] at at_second
      rcases (mem_dominatorProblem_transfer coherent facts rest.first_mem_graph).mp at_second with
        rfl | ⟨_, _, shared⟩
      · exact Or.inl (List.mem_cons_of_mem _ rest.first_mem)
      · exact Or.inr (shared first edge)

private theorem dominates_of_mem {facts : Nat → BitSet}
    (solution : (dominatorProblem graph entry).IsSolution facts) {id x : Nat}
    (reached : graph.ReachedFrom roots id) (inside : x ∈ (facts id).members) :
    graph.Dominates roots x id := by
  refine ⟨reached, fun root listed path walk => ?_⟩
  rcases mem_path_or_mem_first coherent solution walk inside with on_path | at_root
  · exact on_path
  · -- The set of a root holds the root alone.
    obtain ⟨label, labelled⟩ := Graph.mem_iff_label?.mp walk.first_mem_graph
    rw [solution root label labelled] at at_root
    rcases (mem_dominatorProblem_transfer coherent facts walk.first_mem_graph).mp at_root with
      rfl | ⟨not_root, _, _⟩
    · exact walk.first_mem
    · exact absurd ((roots_iff root).mp listed) not_root

end

/-! ### The two ways to find dominators -/

section

variable {nodeLimit fuel : Nat} {result : Problem.Solution BitSet}

private theorem exists_set (coherent : graph.Coherent)
    (roots_iff : ∀ id, id ∈ roots ↔ graph.IsRoot entry id)
    (solved : (dominatorProblem graph entry).solve nodeLimit fuel = .ok result) {id : Nat}
    (member : id ∈ graph) :
    ∃ set, result.outputs[id]? = some set ∧ KeepsDominators graph roots id set ∧
      (dominatorProblem graph entry).factsOf result.outputs id = set := by
  obtain ⟨_, outputs⟩ := Problem.solve_eq_ok_iff.mp solved
  have known : id ∈ result.outputs := by
    rw [← outputs]
    exact (((dominatorProblem graph entry).consistent_run coherent nodeLimit fuel).same_nodes
      id).mpr member
  have kept := keepsDominators_run coherent roots_iff nodeLimit fuel id member
  rw [outputs] at kept
  obtain ⟨set, found⟩ :=
    Option.isSome_iff_exists.mp (Std.ExtTreeMap.mem_iff_isSome_getElem?.mp known)
  have same : (dominatorProblem graph entry).factsOf result.outputs id = set := by
    rw [Problem.factsOf, Std.ExtTreeMap.getD_eq_getD_getElem?, found, Option.getD_some]
  exact ⟨set, found, same ▸ kept, same⟩

private theorem mem_set_iff (coherent : graph.Coherent)
    (roots_iff : ∀ id, id ∈ roots ↔ graph.IsRoot entry id)
    (solved : (dominatorProblem graph entry).solve nodeLimit fuel = .ok result) {id : Nat}
    (reached : graph.ReachedFrom roots id) :
    ∃ set, result.outputs[id]? = some set ∧ set.size = graph.idBound ∧
      ∀ x, x ∈ set.members ↔ graph.Dominates roots x id := by
  have member : id ∈ graph := by
    obtain ⟨_, _, _, walk⟩ := reached
    exact walk.last_mem_graph
  obtain ⟨set, found, kept, same⟩ := exists_set coherent roots_iff solved member
  refine ⟨set, found, kept.size, fun x => ⟨fun inside => ?_, fun dominates => ?_⟩⟩
  · have solution : (dominatorProblem graph entry).IsSolution
        ((dominatorProblem graph entry).factsOf result.outputs) :=
          Problem.solve_isSolution coherent solved
    exact dominates_of_mem coherent roots_iff solution reached (same ▸ inside)
  · obtain ⟨_, _, _, to_x⟩ := dominates.reached
    exact kept.complete x (Graph.lt_idBound to_x.last_mem_graph) fun _ => dominates

end

/-- When the dataflow problem is solved, the set of every node that is reached from the entry or
from a node without predecessors holds exactly the ancestors of the node in the forest of these
roots, in whatever order they are given. Every other node has the full set. If the entry is the only
node without predecessors and reaches all nodes, then this is the forest of the graph, and the two
agree everywhere. -/
theorem dominatorSets_agree (graph : Graph N E) (built : graph.Built) (entry nodeLimit fuel : Nat)
    (result : Problem.Solution BitSet)
    (solved : (dominatorProblem graph entry).solve nodeLimit fuel = .ok result) :
    (∀ roots : List Nat, (∀ id, id ∈ roots ↔ graph.IsRoot entry id) → ∀ y, y ∈ graph →
      (graph.ReachedFrom roots y → ∃ set, result.outputs[y]? = some set ∧ set.size = graph.idBound ∧
        ∀ x, x ∈ set.members ↔ x ∈ (DominatorForest.ofRoots graph roots).ancestors y) ∧
      (¬ graph.ReachedFrom roots y → result.outputs[y]? = some (.full graph.idBound))) ∧
    (Direction.boundary .forward graph = [entry] → (∀ y, y ∈ graph → graph.Reaches entry y) →
      ∀ y, y ∈ graph → ∃ set, result.outputs[y]? = some set ∧
        ∀ x, x ∈ set.members ↔ x ∈ (DominatorForest.forward graph).ancestors y) := by
  have coherent := built.coherent
  constructor
  · intro roots roots_iff y member
    constructor
    · intro reached
      obtain ⟨parents, final⟩ := DominatorForest.exists_final coherent roots
      simpa only [final.mem_ancestors_iff] using mem_set_iff coherent roots_iff solved reached
    · intro unreached
      obtain ⟨set, found, kept, _⟩ := exists_set coherent roots_iff solved member
      rw [found, BitSet.eq_full kept.size kept.bounded fun x bounded =>
        kept.complete x bounded fun reached => absurd reached unreached]
  · intro only_entry reaches_all y member
    have entry_listed : entry ∈ Direction.boundary .forward graph := by simp [only_entry]
    -- The entry is without predecessors itself, so it adds no root.
    have roots_iff : ∀ id, id ∈ Direction.boundary .forward graph ↔ graph.IsRoot entry id := by
      intro id
      constructor
      · intro listed
        obtain ⟨known, alone⟩ := List.mem_filter.mp listed
        exact ⟨Graph.mem_ids.mp known, Or.inr (List.isEmpty_iff.mp alone)⟩
      · rintro ⟨known, rfl | alone⟩
        · exact entry_listed
        · exact List.mem_filter.mpr ⟨Graph.mem_ids.mpr known, List.isEmpty_iff.mpr alone⟩
    obtain ⟨parents, final⟩ :=
      DominatorForest.exists_final coherent (Direction.boundary .forward graph)
    obtain ⟨set, found, _, same⟩ :=
      mem_set_iff coherent roots_iff solved ⟨entry, entry_listed, reaches_all y member⟩
    refine ⟨set, found, fun x => ?_⟩
    rw [same, DominatorForest.forward, final.mem_ancestors_iff]

/-- A loop that nothing leads to feeds a node that the entry reaches too, and so does the entry. -/
def fedTwice : Graph Unit Unit :=
  ((((((((∅ : Graph Unit Unit).insertNode 0 ()).insertNode 1 ()).insertNode 2 ()).insertNode 4
    ()).addEdge 0 1 ()).addEdge 1 0 ()).addEdge 4 4 ()).addEdge 4 1 ()

/-- The entry is a root although it has a predecessor, node 2 is one because it has none, and the
loop is not reached at all. -/
theorem fedTwice_agree :
    fedTwice.Built ∧ ∃ result, (dominatorProblem fedTwice 0).solve 20 0 = .ok result ∧
      (∀ x, x ∈ (DominatorForest.ofRoots fedTwice [2, 0]).ancestors 1 ↔ x = 0 ∨ x = 1) ∧
      (∃ set, result.outputs[1]? = some set ∧ ∀ x, x ∈ set.members ↔ x = 0 ∨ x = 1) ∧
      result.outputs[4]? = some (.full fedTwice.idBound) := by
  have built : fedTwice.Built := by
    have empty : (∅ : Graph Unit Unit).Built := .empty
    have nodes := (((empty.insertNode 0 ()).insertNode 1 ()).insertNode 2 ()).insertNode 4 ()
    have cycle := (nodes.addEdge 0 1 () (by decide) (by decide)).addEdge 1 0 ()
      (by decide) (by decide)
    exact (cycle.addEdge 4 4 () (by decide) (by decide)).addEdge 4 1 () (by decide) (by decide)
  -- Five visits are enough.
  have solved : (dominatorProblem fedTwice 0).solve 20 0 =
      .ok { outputs := ((dominatorProblem fedTwice 0).runFrom 5
              (dominatorProblem fedTwice 0).start).outputs } :=
    Problem.solve_of_settled (by decide +kernel) (by decide +kernel)
  have roots_iff : ∀ id, id ∈ [2, 0] ↔ fedTwice.IsRoot 0 id := by
    intro id
    constructor
    · intro listed
      simp only [List.mem_cons, List.not_mem_nil, or_false] at listed
      rcases listed with rfl | rfl
      · exact ⟨by decide +kernel, Or.inr (by decide +kernel)⟩
      · exact ⟨by decide +kernel, Or.inl rfl⟩
    · rintro ⟨member, root⟩
      have nodes : fedTwice.ids = [0, 1, 2, 4] := by decide +kernel
      have listed := Graph.mem_ids.mpr member
      simp only [nodes, List.mem_cons, List.not_mem_nil, or_false] at listed
      rcases listed with rfl | rfl | rfl | rfl
      · simp
      · exact absurd root (by decide +kernel)
      · simp
      · exact absurd root (by decide +kernel)
  have agree := (dominatorSets_agree fedTwice built 0 20 0 _ solved).1 [2, 0] roots_iff
  obtain ⟨parents, final⟩ := DominatorForest.exists_final built.coherent [2, 0]
  have ancestors : ∀ x, x ∈ (DominatorForest.ofRoots fedTwice [2, 0]).ancestors 1 ↔
      x = 0 ∨ x = 1 := by
    have listed : (DominatorForest.ofRoots fedTwice [2, 0]).ancestors 1 = [1, 0] := by
      decide +kernel
    simp [listed, or_comm]
  have reached : fedTwice.ReachedFrom [2, 0] 1 := final.mem_iff.mp (by decide +kernel)
  have unreached : ¬ fedTwice.ReachedFrom [2, 0] 4 := fun inside =>
    absurd (final.mem_iff.mpr inside) (by decide +kernel)
  obtain ⟨set, found, _, same⟩ := (agree 1 (by decide +kernel)).1 reached
  exact ⟨built, _, solved, ancestors, ⟨set, found, fun x => (same x).trans (ancestors x)⟩,
    (agree 4 (by decide +kernel)).2 unreached⟩

end FlowIR
