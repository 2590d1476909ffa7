import FlowIR.ControlFlow.Dependence
import FlowIR.Proofs.Dominance.Forest
import FlowIR.Proofs.Failure
import Mathlib.Data.List.Chain

/-!
# Correctness of control dependence

A node depends on another one if, after some edge out of the other one, every way to an exit goes
through the node, but not every way to an exit from the other one does.
-/
namespace FlowIR

variable {N E : Type}

namespace Graph

/-- Control goes nowhere from an exit. -/
def IsExit (graph : Graph N E) (id : Nat) : Prop := id ∈ graph ∧ ∀ next, ¬ graph.HasEdge id next

def ReachesExit (graph : Graph N E) (id : Nat) : Prop :=
  ∃ exit, graph.IsExit exit ∧ graph.Reaches id exit

/-- Every walk from `id` to an exit goes through `x`. -/
def OnEveryExitWalk (graph : Graph N E) (x id : Nat) : Prop :=
  ∀ exit path, graph.IsExit exit → graph.Walk id exit path → x ∈ path

/-- `x` directly depends on `controller`. -/
def DependsOn (graph : Graph N E) (x controller : Nat) : Prop :=
  ∃ next, graph.HasEdge controller next ∧ graph.ReachesExit next ∧ graph.OnEveryExitWalk x next ∧
    ¬ graph.OnEveryExitWalk x controller

variable {graph : Graph N E}

theorem isEmpty_successors_iff {id : Nat} :
    (graph.successors id).isEmpty = true ↔ ∀ next, ¬ graph.HasEdge id next := by
  rw [List.isEmpty_iff, List.eq_nil_iff_forall_not_mem]
  constructor
  · rintro none_listed next ⟨label, member⟩
    exact none_listed (next, label) (mem_successors.mpr member)
  · rintro no_edge ⟨next, label⟩ listed
    exact no_edge next ⟨label, mem_successors.mp listed⟩

theorem mem_boundary_backward {id : Nat} :
    id ∈ Direction.boundary .backward graph ↔ graph.IsExit id := by
  rw [Direction.boundary, List.mem_filter, mem_ids]
  exact and_congr_right fun _ => isEmpty_successors_iff

/-- Reaching an exit is being reached from the exits when all edges are turned around. -/
theorem reachedFrom_exits_iff (coherent : graph.Coherent) {id : Nat} :
    graph.reverse.ReachedFrom (Direction.boundary .backward graph) id ↔ graph.ReachesExit id := by
  constructor
  · rintro ⟨exit, listed, path, walk⟩
    exact ⟨exit, mem_boundary_backward.mp listed, _, (walk_reverse_iff coherent).mp walk⟩
  · rintro ⟨exit, is_exit, path, walk⟩
    exact ⟨exit, mem_boundary_backward.mpr is_exit, _, walk.reverse coherent⟩

theorem dominates_exits_iff (coherent : graph.Coherent) {x id : Nat} :
    graph.reverse.Dominates (Direction.boundary .backward graph) x id ↔
      graph.ReachesExit id ∧ graph.OnEveryExitWalk x id := by
  rw [Dominates, reachedFrom_exits_iff coherent]
  refine and_congr_right fun _ => ?_
  constructor
  · intro through exit path is_exit walk
    simpa using through exit (mem_boundary_backward.mpr is_exit) _ (walk.reverse coherent)
  · intro through exit listed path walk
    simpa using through exit _ (mem_boundary_backward.mp listed)
      ((walk_reverse_iff coherent).mp walk)

end Graph

/-! ### The dependents of one edge -/

/-- Everything before the first element with a property, told from where that element is found. -/
theorem takeWhile_ne_find? (p : Nat → Bool) (ids : List Nat) :
    ids.takeWhile (fun id => some id ≠ ids.find? p) = ids.takeWhile fun id => !p id := by
  induction ids with
  | nil => rfl
  | cons first rest ih =>
    cases holds : p first with
    | true => simp [holds]
    | false =>
      have different : some first ≠ rest.find? p := by
        intro same
        have property := List.find?_some same.symm
        simp [holds] at property
      rw [List.find?_cons_of_neg (by simp [holds]),
        List.takeWhile_cons_of_pos (by simpa using different),
        List.takeWhile_cons_of_pos (by simp [holds]), ih]

/-- If a property stays once it holds, the elements before it holds are those without it. -/
theorem mem_takeWhile_not (p : Nat → Bool) (ids : List Nat)
    (stays : ids.Pairwise fun before after => p before = true → p after = true) (x : Nat) :
    x ∈ ids.takeWhile (fun id => !p id) ↔ x ∈ ids ∧ p x = false := by
  induction ids with
  | nil => simp
  | cons first rest ih =>
    obtain ⟨from_first, rest_stays⟩ := List.pairwise_cons.mp stays
    cases holds : p first with
    | true =>
      rw [List.takeWhile_cons_of_neg (by simp [holds])]
      constructor
      · intro impossible
        simp at impossible
      · rintro ⟨member, fails⟩
        rcases List.mem_cons.mp member with rfl | later
        · simp [holds] at fails
        · simp [from_first x later holds] at fails
    | false =>
      rw [List.takeWhile_cons_of_pos (by simp [holds]), List.mem_cons, ih rest_stays, List.mem_cons,
        or_and_right]
      exact or_congr_left ⟨fun same => ⟨same, same ▸ holds⟩, And.left⟩

namespace DominatorForest

variable {graph : Graph N E} {roots : List Nat} {parents : Parents}

/-- The ancestors of a node that are also ancestors of another one come last. -/
theorem Final.ancestors_shared (final : Final graph roots parents) (m n : Nat) :
    ((ofRoots graph roots).ancestors n).Pairwise fun before after =>
      decide (before ∈ (ofRoots graph roots).ancestors m) = true →
        decide (after ∈ (ofRoots graph roots).ancestors m) = true := by
  refine (final.pairwise_ancestors n).imp fun dominates => ?_
  simp only [decide_eq_true_eq, final.mem_ancestors_iff]
  exact fun shared => shared.trans dominates

private theorem Final.mem_dependentsOfEdge (final : Final graph roots parents) {m n x : Nat} :
    x ∈ dependentsOfEdge (ofRoots graph roots) m n ↔
      graph.Dominates roots x n ∧ ¬ graph.Dominates roots x m := by
  rw [dependentsOfEdge]
  split
  next dominated =>
    -- No node dominates the target without dominating the source too.
    have n_over_m : graph.Dominates roots n m := by
      rwa [dominates, decide_eq_true_eq, final.mem_ancestors_iff] at dominated
    simpa using fun x_over_n : graph.Dominates roots x n => n_over_m.trans x_over_n
  next =>
    have members := mem_takeWhile_not (· ∈ (ofRoots graph roots).ancestors m) _
      (final.ancestors_shared m n) x
    change x ∈ ((ofRoots graph roots).ancestors n).takeWhile (fun id => some id ≠
      ((ofRoots graph roots).ancestors n).find? (· ∈ (ofRoots graph roots).ancestors m)) ↔ _
    rw [takeWhile_ne_find?, members, final.mem_ancestors_iff, decide_eq_false_iff_not,
      final.mem_ancestors_iff]

end DominatorForest

private theorem mem_dependencePairs {graph : Graph N E} (coherent : graph.Coherent)
    {x controller : Nat} :
    (x, controller) ∈ dependencePairs graph (.backward graph) ↔ graph.DependsOn x controller := by
  obtain ⟨parents, final⟩ :=
    DominatorForest.exists_final coherent.reverse (Direction.boundary .backward graph)
  have dependents : ∀ {m n : Nat}, x ∈ dependentsOfEdge (.backward graph) m n ↔
      (graph.ReachesExit n ∧ graph.OnEveryExitWalk x n) ∧
        ¬ (graph.ReachesExit m ∧ graph.OnEveryExitWalk x m) := by
    intro m n
    rw [← Graph.dominates_exits_iff coherent, ← Graph.dominates_exits_iff coherent]
    exact final.mem_dependentsOfEdge
  simp only [dependencePairs, List.mem_flatMap, List.mem_map, Prod.mk.injEq]
  constructor
  · rintro ⟨edge, member, _, dependent, rfl, rfl⟩
    have has_edge : graph.HasEdge edge.source edge.target :=
      Graph.hasEdge_iff_mem_edges.mpr ⟨edge, member, rfl, rfl⟩
    -- The source reaches an exit through the target, so what fails of it is the other half.
    obtain ⟨⟨reaches, through⟩, not_through⟩ := dependents.mp dependent
    refine ⟨edge.target, has_edge, reaches, through, fun everywhere => not_through ⟨?_, everywhere⟩⟩
    obtain ⟨exit, is_exit, path, walk⟩ := reaches
    exact ⟨exit, is_exit, _, .cons has_edge walk⟩
  · rintro ⟨next, has_edge, reaches, through, not_through⟩
    obtain ⟨edge, member, rfl, rfl⟩ := Graph.hasEdge_iff_mem_edges.mp has_edge
    have dependent := dependents.mpr ⟨⟨reaches, through⟩, fun both => not_through both.2⟩
    exact ⟨edge, member, x, dependent, rfl, rfl⟩

/-! ### One edge for each pair -/

/-- A graph with given nodes and exactly one edge for each pair of a given set. -/
structure Graph.OneEdgeEach (graph : Graph N Unit) (labels : Nat → Option N)
    (pairs : Nat × Nat → Prop) :
    Prop where
  same_labels : ∀ id, graph.label? id = labels id
  present : ∀ {x y}, pairs (x, y) → graph.edgeLabels x y = [()]
  missing : ∀ {x y}, ¬ pairs (x, y) → graph.edgeLabels x y = []

private theorem addDependence_oneEdgeEach {graph : Graph N Unit} {labels : Nat → Option N}
    {pairs : Nat × Nat → Prop} (exact_edges : graph.OneEdgeEach labels pairs) {x y : Nat}
    (x_mem : x ∈ graph) (y_mem : y ∈ graph) :
    ∃ next, addDependence graph (x, y) = .ok next ∧ (∀ id, id ∈ next ↔ id ∈ graph) ∧
      next.OneEdgeEach labels fun pair => pair = (x, y) ∨ pairs pair := by
  by_cases known : pairs (x, y)
  · -- A pair that is known already is skipped, so its edge does not become a second one.
    have labels_known := exact_edges.present known
    refine ⟨graph, by simp [addDependence, labels_known], fun id => Iff.rfl,
      exact_edges.same_labels, ?_, ?_⟩
    · rintro a b (same | old)
      · rw [Prod.mk.injEq] at same
        rw [same.1, same.2, labels_known]
      · exact exact_edges.present old
    · intro a b neither
      exact exact_edges.missing fun old => neither (Or.inr old)
  · have no_labels := exact_edges.missing known
    have edge_labels : ∀ a b, (graph.addEdge x y ()).edgeLabels a b =
        if x = a ∧ y = b then graph.edgeLabels a b ++ [()] else graph.edgeLabels a b :=
      Graph.edgeLabels_addEdge () x_mem
    refine ⟨graph.addEdge x y (), ?_, fun id => Graph.mem_addEdge, ?_, ?_, ?_⟩
    · simp [addDependence, no_labels, Graph.insertEdge_eq, x_mem, y_mem]
    · intro id
      rw [Graph.label?_addEdge, exact_edges.same_labels]
    · rintro a b (same | old)
      · rw [Prod.mk.injEq] at same
        rw [same.1, same.2, edge_labels, if_pos ⟨rfl, rfl⟩, no_labels, List.nil_append]
      · -- The new pair was unknown, so a pair that was known is another one.
        have different : ¬ (x = a ∧ y = b) := by
          rintro ⟨rfl, rfl⟩
          exact known old
        rw [edge_labels, if_neg different, exact_edges.present old]
    · intro a b neither
      rw [edge_labels, if_neg, exact_edges.missing fun old => neither (Or.inr old)]
      rintro ⟨rfl, rfl⟩
      exact neither (Or.inl rfl)

private theorem foldlM_addDependence (list : List (Nat × Nat)) {graph : Graph N Unit}
    {labels : Nat → Option N} {pairs : Nat × Nat → Prop}
    (exact_edges : graph.OneEdgeEach labels pairs)
    (ends : ∀ pair ∈ list, pair.1 ∈ graph ∧ pair.2 ∈ graph) :
    ∃ result, list.foldlM addDependence graph = .ok result ∧
      result.OneEdgeEach labels fun pair => pair ∈ list ∨ pairs pair := by
  induction list generalizing graph pairs with
  | nil => exact ⟨graph, rfl, by simpa using exact_edges⟩
  | cons pair rest ih =>
    obtain ⟨x_mem, y_mem⟩ := ends pair (by simp)
    obtain ⟨next, added, same_nodes, next_edges⟩ :=
      addDependence_oneEdgeEach exact_edges x_mem y_mem
    obtain ⟨result, folded, result_edges⟩ := ih next_edges fun other member => by
      rw [same_nodes, same_nodes]
      exact ends other (List.mem_cons_of_mem _ member)
    refine ⟨result, ?_, ?_⟩
    · rw [List.foldlM_cons]
      simpa [added, bind, Except.bind] using folded
    · -- For the rest of the list the first pair is one of those that were known before.
      have same_pairs : (fun other => other ∈ pair :: rest ∨ pairs other) =
          fun other => other ∈ rest ∨ other = (pair.1, pair.2) ∨ pairs other := by
        funext other
        rw [List.mem_cons, or_assoc, or_left_comm]
      rw [same_pairs]
      exact result_edges

private theorem isolated_oneEdgeEach (graph : Graph N E) :
    (Graph.isolated graph.nodes : Graph N Unit).OneEdgeEach graph.label? fun _ => False where
  same_labels := Graph.label?_isolated_nodes graph
  present := fun impossible => impossible.elim
  missing := fun _ => by simp [Graph.edgeLabels, Graph.succMap_isolated]

theorem controlDependence_oneEdgeEach {graph : Graph N E} (coherent : graph.Coherent) :
    ∃ result, controlDependence graph (.backward graph) = .ok result ∧
      result.OneEdgeEach graph.label? fun pair => graph.DependsOn pair.1 pair.2 := by
  have ends : ∀ pair ∈ dependencePairs graph (.backward graph),
      pair.1 ∈ (Graph.isolated graph.nodes : Graph N Unit) ∧
        pair.2 ∈ (Graph.isolated graph.nodes : Graph N Unit) := by
    rintro ⟨x, controller⟩ member
    rw [Graph.mem_isolated_nodes, Graph.mem_isolated_nodes]
    obtain ⟨next, has_edge, reaches, through, _⟩ := (mem_dependencePairs coherent).mp member
    refine ⟨?_, has_edge.source_mem⟩
    -- The dependent node lies on some walk to an exit, so it is a node of the graph.
    obtain ⟨exit, is_exit, path, walk⟩ := reaches
    obtain ⟨_, first_part, _⟩ := walk.upTo (through exit path is_exit walk)
    exact first_part.last_mem_graph
  obtain ⟨result, folded, exact_edges⟩ := foldlM_addDependence _ (isolated_oneEdgeEach graph) ends
  refine ⟨result, folded, ?_⟩
  have same_pairs : (fun pair => pair ∈ dependencePairs graph (.backward graph) ∨ False) =
      fun pair => graph.DependsOn pair.1 pair.2 := by
    funext pair
    rw [or_false]
    exact propext (mem_dependencePairs coherent)
  rwa [same_pairs] at exact_edges

private theorem Graph.OneEdgeEach.edgeLabels_iff {graph : Graph N Unit} {labels : Nat → Option N}
    {pairs : Nat × Nat → Prop} (exact_edges : graph.OneEdgeEach labels pairs) (x y : Nat) :
    (graph.edgeLabels x y = [()] ↔ pairs (x, y)) ∧
      (graph.edgeLabels x y = [] ↔ ¬ pairs (x, y)) := by
  by_cases pair : pairs (x, y)
  · simp [exact_edges.present pair, pair]
  · simp [exact_edges.missing pair, pair]

private theorem Graph.not_dependsOn_self (graph : Graph N E) (id : Nat) :
    ¬ graph.DependsOn id id := by
  rintro ⟨_, _, _, _, missed⟩
  exact missed fun _ _ _ walk => walk.first_mem

/-! ### Between instructions -/

namespace FlowGraph

@[simp] theorem forward_reverse (flow : FlowGraph) : flow.reverse.forward = flow.forward := by
  cases turned : flow.reversed <;> simp [forward, reverse, turned, Graph.reverse_reverse]

@[simp] theorem backward_reverse (flow : FlowGraph) : flow.reverse.backward = flow.backward := by
  cases turned : flow.reversed <;> simp [backward, reverse, turned, Graph.reverse_reverse]

/-- A graph takes a function, an instruction to start with, and both ends of every edge. -/
theorem ofFunction_eq_ok_iff {module : Module} {function : ValueId} {flow : FlowGraph} :
    ofFunction module function = .ok flow ↔
      ∃ info entry graph, module.function? function = some info ∧
      (info.entryBlock?.bind module.block?).bind BlockInfo.first? = some entry ∧
      ofBlocks module (info.blocks.filterMap module.block?) = .ok graph ∧
      { function, graph, entry, exits := graph.ids.filter fun id => (graph.succIds id).isEmpty,
        reversed := false } = flow := by
  rw [ofFunction]
  cases found : module.function? function with
  | none => simp
  | some info =>
    cases begins : (info.entryBlock?.bind module.block?).bind BlockInfo.first? with
    | none => simp [begins]
    | some entry =>
      cases built : ofBlocks module (info.blocks.filterMap module.block?) <;> simp [begins, built]

/-- What the construction of a flow graph leaves when it succeeds. -/
theorem ofFunction_spec {module : Module} {function : ValueId} {flow : FlowGraph}
    (succeeded : ofFunction module function = .ok flow) :
    flow.graph.Built ∧ flow.function = function ∧ flow.reversed = false ∧
      flow.exits = flow.graph.ids.filter fun id => (flow.graph.succIds id).isEmpty := by
  obtain ⟨_, _, graph, _, _, built, rfl⟩ := ofFunction_eq_ok_iff.mp succeeded
  exact ⟨Graph.built_build built, rfl, rfl, rfl⟩

theorem exits_eq_boundary {graph : Graph N E} (coherent : graph.Coherent) :
    graph.ids.filter (fun id => (graph.succIds id).isEmpty) =
      Direction.boundary .backward graph := by
  apply List.filter_congr
  intro id _
  rw [Bool.eq_iff_iff]
  change _ ↔ (graph.successors id).isEmpty = true
  rw [Graph.isEmpty_successors_iff, List.isEmpty_iff, List.eq_nil_iff_forall_not_mem]
  exact forall_congr' fun next => not_congr coherent.mem_succIds

end FlowGraph

private theorem DependenceGraph.ofFlow_reverse (flow : FlowGraph) :
    ofFlow flow.reverse = ofFlow flow := by
  simp only [ofFlow, FlowGraph.forward_reverse, FlowGraph.postdominators,
    FlowGraph.backward_reverse]
  rfl

private theorem DependenceGraph.ofFlow_iterate_reverse (flow : FlowGraph) (turns : Nat) :
    ofFlow (FlowGraph.reverse^[turns] flow) = ofFlow flow := by
  induction turns with
  | zero => rfl
  | succ turns ih => rw [Function.iterate_succ_apply', ofFlow_reverse, ih]

/-- Control dependence is always built, over the same nodes. It has one edge for each direct
dependence and no other. Between the instructions of a function it does not matter how often the
flow was turned around. -/
theorem controlDependence_exact :
    (∀ (N E : Type) (graph : Graph N E), graph.Built →
      ∃ result, controlDependence graph (.backward graph) = .ok result ∧
        result.nodes = graph.nodes ∧
        (∀ x controller,
          (result.edgeLabels x controller = [()] ↔ graph.DependsOn x controller) ∧
          (result.edgeLabels x controller = [] ↔ ¬ graph.DependsOn x controller)) ∧
        ∀ x, ¬ result.HasEdge x x) ∧
    ∀ (module : Module) (function : ValueId) (flow : FlowGraph),
      FlowGraph.ofFunction module function = .ok flow →
      ∃ result, controlDependence flow.graph (.backward flow.graph) = .ok result ∧
        ∀ turns, DependenceGraph.ofFlow (FlowGraph.reverse^[turns] flow) =
          .ok { function, graph := result } := by
  constructor
  · intro N E graph built
    obtain ⟨result, succeeded, exact_edges⟩ := controlDependence_oneEdgeEach built.coherent
    refine ⟨result, succeeded, Graph.nodes_eq_of_label?_eq exact_edges.same_labels,
      exact_edges.edgeLabels_iff, ?_⟩
    rintro x ⟨label, member⟩
    simp [exact_edges.missing (graph.not_dependsOn_self x)] at member
  · intro module function flow succeeded
    obtain ⟨built, same_function, forwards, exits⟩ := FlowGraph.ofFunction_spec succeeded
    obtain ⟨result, dependence, _⟩ := controlDependence_oneEdgeEach built.coherent
    refine ⟨result, dependence, fun turns => ?_⟩
    have postdominators : flow.postdominators = .backward flow.graph := by
      rw [FlowGraph.postdominators, exits, FlowGraph.exits_eq_boundary built.coherent]
      simp [FlowGraph.backward, forwards, DominatorForest.backward]
    have forward : flow.forward = flow.graph := by simp [FlowGraph.forward, forwards]
    rw [DependenceGraph.ofFlow_iterate_reverse, DependenceGraph.ofFlow, forward, postdominators,
      dependence, same_function]

/-- A function that may skip its second block. -/
def skipping : Module where
  identifier := ""
  dataLayout := ""
  targetTriple := ""
  inlineAsm := ""
  littleEndian := true
  pointerSize := 64
  globals := []
  aliases := []
  functions := [0]
  values :=
    let contents : List Content :=
      [.function { external := false, align := 0, linkage := .external, visibility := .standard
                   sectionName := none, callingConvention := .c, gc := none, arguments := []
                   blocks := [1, 2, 3], vararg := false },
        .basicBlock { instructions := [4] }, .basicBlock { instructions := [5] },
        .basicBlock { instructions := [6] }, .instruction (.condBr 7 2 3), .instruction (.br 3),
        .instruction (.ret none), .constant (.int 1)]
    contents.zipIdx.map fun (content, id) =>
      { id, header := { name := none, ty := 0, location := none }, content }
  types := [.void]
  owners := ∅

/-- The skipped instruction depends on the branch, and the last one does not. -/
theorem skipping_dependence :
    ∃ flow, FlowGraph.ofFunction skipping 0 = .ok flow ∧ flow.graph.Built ∧
      flow.graph.DependsOn 5 4 ∧ ¬ flow.graph.DependsOn 6 4 ∧
      ∃ result, DependenceGraph.ofFlow flow.reverse = .ok { function := 0, graph := result } := by
  have edges : (FlowGraph.ofFunction skipping 0).toOption.bind (fun flow =>
      (controlDependence flow.graph (.backward flow.graph)).toOption.map fun result =>
        (result.edgeLabels 5 4, result.edgeLabels 6 4)) = some ([()], []) := by
    decide +kernel
  obtain ⟨flow, succeeded, edges⟩ := exists_ok_of_toOption_bind edges
  have built := (FlowGraph.ofFunction_spec succeeded).1
  obtain ⟨result, dependence, _, exact_edges, _⟩ := controlDependence_exact.1 _ _ flow.graph built
  obtain ⟨dependents, _, turned⟩ := controlDependence_exact.2 skipping 0 flow succeeded
  simp only [dependence, Except.toOption, Option.map_some, Option.some.injEq,
    Prod.mk.injEq] at edges
  exact ⟨flow, succeeded, built, (exact_edges 5 4).1.mp edges.1, (exact_edges 6 4).2.mp edges.2,
    dependents, turned 1⟩

end FlowIR
