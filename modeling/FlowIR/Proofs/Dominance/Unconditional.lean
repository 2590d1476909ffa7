import FlowIR.Proofs.Dominance.ControlDependence
import FlowIR.Proofs.Graph.Cycles

/-!
# Nodes that nothing decides about

A node that depends on nothing is on every way to an exit, from wherever it can be reached. A node
on every way to an exit may still depend on another one, but only inside of a loop: the other one
decides whether the loop is run once more. Without loops, the nodes that depend on nothing are
exactly those on every way to an exit.
-/
namespace FlowIR

variable {N E : Type}

namespace Graph

variable {graph : Graph N E} {x first id controller : Nat}

/-! ### Postdominance along walks -/

private theorem onEveryExitWalk_self (graph : Graph N E) (x : Nat) : graph.OnEveryExitWalk x x :=
  fun _ _ _ walk => walk.first_mem

private theorem Reaches.reachesExit {last : Nat} (reaches : graph.Reaches first last)
    (reaches_exit : graph.ReachesExit last) : graph.ReachesExit first := by
  obtain ⟨exit, is_exit, onwards⟩ := reaches_exit
  exact ⟨exit, is_exit, reaches.trans onwards⟩

/-- What every walk to an exit goes through cannot be left behind without going through it. -/
theorem OnEveryExitWalk.along {path : List Nat} (through : graph.OnEveryExitWalk x first)
    (walk : graph.Walk first id path) (misses : x ∉ path) : graph.OnEveryExitWalk x id := by
  intro exit rest is_exit onwards
  have passed := through exit _ is_exit (walk.append onwards)
  exact List.mem_of_mem_tail ((List.mem_append.mp passed).resolve_left misses)

/-- If a node depends on nothing, then no edge on a way to it decides whether it is reached. -/
theorem onEveryExitWalk_of_independent {path : List Nat} (reaches_exit : graph.ReachesExit x)
    (independent : ∀ controller, ¬ graph.DependsOn x controller) (walk : graph.Walk first x path) :
    graph.OnEveryExitWalk x first := by
  induction walk with
  | single _ => exact onEveryExitWalk_self graph _
  | cons edge rest ih =>
    -- Otherwise the node would depend on the start of this edge.
    by_contra missed
    exact independent _ ⟨_, edge, Reaches.reachesExit ⟨_, rest⟩ reaches_exit,
      ih reaches_exit independent, missed⟩

/-! ### Dependence inside of a loop -/

/-- From the controller one way leads to the node before any exit. Another one leads to an exit
without meeting the node, so the node was met on the way to the controller. The two parts of this
loop have nothing in common: the node is on every way to an exit from the nodes of the first part,
and from those of the second it is not. -/
theorem exists_cycle_of_dependsOn (everywhere : graph.OnEveryExitWalk x first)
    (depends : graph.DependsOn x controller) (reached : graph.Reaches first controller) :
    ∃ cycle, graph.IsCycle cycle ∧ x ∈ cycle ∧ controller ∈ cycle := by
  obtain ⟨next, edge, ⟨exit, is_exit, path, to_exit⟩, through, missed⟩ := depends
  -- The way there.
  obtain ⟨_, _, _, upto, _⟩ := to_exit.split (through exit path is_exit to_exit)
  obtain ⟨there, walk_there, distinct_there⟩ := upto.exists_simple
  have decided : ∀ other ∈ there, other ≠ x → graph.OnEveryExitWalk x other := by
    intro other member different
    obtain ⟨before, walk, misses⟩ := walk_there.exists_avoiding_last distinct_there member different
    exact through.along walk misses
  -- The way back.
  obtain ⟨way, walk_way⟩ := reached
  have met : x ∈ way := by
    by_contra misses
    exact missed (everywhere.along walk_way misses)
  obtain ⟨_, _, _, _, onwards⟩ := walk_way.split met
  obtain ⟨back, walk_back, distinct_back⟩ := onwards.exists_simple
  have undecided : ∀ other ∈ back, other ≠ x → ¬ graph.OnEveryExitWalk x other := by
    intro other member different still
    obtain ⟨after, walk, misses⟩ := walk_back.exists_avoiding_first distinct_back member different
    exact missed (still.along walk misses)
  have different : controller ≠ x := by
    rintro rfl
    exact missed (onEveryExitWalk_self graph controller)
  obtain ⟨rest, rfl⟩ : ∃ rest, back = x :: rest := by
    cases walk_back with
    | single _ => exact ⟨[], rfl⟩
    | cons _ _ => exact ⟨_, rfl⟩
  rw [List.nodup_cons] at distinct_back
  refine ⟨there ++ rest, ⟨?_, next, controller, walk_there.append walk_back, edge⟩,
    List.mem_append_left _ walk_there.last_mem, List.mem_append_right _ ?_⟩
  · refine List.nodup_append.mpr ⟨distinct_there, distinct_back.2, ?_⟩
    rintro other early _ late rfl
    have not_x : other ≠ x := fun same => distinct_back.1 (same ▸ late)
    exact undecided other (List.mem_cons_of_mem x late) not_x (decided other early not_x)
  · exact (List.mem_cons.mp walk_back.last_mem).resolve_left different

/-! ### Without loops -/

private theorem Acyclic.reachesExit (acyclic : graph.Acyclic) (coherent : graph.Coherent)
    (member : id ∈ graph) :
    graph.ReachesExit id := by
  obtain ⟨last, ⟨path, walk⟩, no_successor⟩ := acyclic.exists_last coherent member
  exact ⟨last, ⟨walk.last_mem_graph, no_successor⟩, path, walk⟩

private theorem DependsOn.controller_mem (depends : graph.DependsOn x controller) :
    controller ∈ graph := by
  obtain ⟨_, edge, _⟩ := depends
  exact edge.source_mem

private theorem Acyclic.independent_iff (acyclic : graph.Acyclic) (coherent : graph.Coherent)
    (member : first ∈ graph) (all_reached : ∀ id ∈ graph, graph.Reaches first id) :
    (graph.ReachesExit x ∧ ∀ controller, ¬ graph.DependsOn x controller) ↔
      graph.OnEveryExitWalk x first := by
  constructor
  · rintro ⟨reaches_exit, independent⟩
    have x_mem : x ∈ graph := by
      obtain ⟨_, _, _, walk⟩ := reaches_exit
      exact walk.first_mem_graph
    obtain ⟨way, walk⟩ := all_reached x x_mem
    exact onEveryExitWalk_of_independent reaches_exit independent walk
  · intro everywhere
    -- Some walk leads to an exit, and the node is on it.
    obtain ⟨exit, is_exit, path, walk⟩ := acyclic.reachesExit coherent member
    obtain ⟨_, _, _, _, onwards⟩ := walk.split (everywhere exit path is_exit walk)
    refine ⟨⟨exit, is_exit, _, onwards⟩, fun controller depends => ?_⟩
    obtain ⟨cycle, is_cycle, _⟩ :=
      exists_cycle_of_dependsOn everywhere depends (all_reached controller depends.controller_mem)
    exact acyclic.not_isCycle coherent cycle is_cycle

theorem OneEdgeEach.hasEdge_iff {result : Graph N Unit} {labels : Nat → Option N}
    {pairs : Nat × Nat → Prop} (exact_edges : result.OneEdgeEach labels pairs)
    {source target : Nat} :
    result.HasEdge source target ↔ pairs (source, target) := by
  by_cases pair : pairs (source, target)
  · simp [HasEdge, exact_edges.present pair, pair]
  · simp [HasEdge, exact_edges.missing pair, pair]

end Graph

/-! ### The two constructions -/

private theorem dominates_backward_iff {graph : Graph N E} (coherent : graph.Coherent)
    {x id : Nat} :
    (DominatorForest.backward graph).dominates x id = true ↔
      graph.ReachesExit id ∧ graph.OnEveryExitWalk x id := by
  obtain ⟨parents, final⟩ :=
    DominatorForest.exists_final coherent.reverse (Direction.boundary .backward graph)
  rw [← Graph.dominates_exits_iff coherent, ← final.mem_ancestors_iff, DominatorForest.dominates,
    decide_eq_true_eq]
  rfl

/-- A node without dependencies postdominates every node that leads to it, if it leads to an exit
itself. If a postdominator of some node depends on a node that is reached from there, then the two
are on a common cycle. So without loops, and if everything is reached from one node, the nodes that
lead to an exit and depend on nothing are those on every walk from that node to an exit. -/
theorem controlDependence_unconditional (graph : Graph N E) (built : graph.Built) :
    ∃ result, controlDependence graph (.backward graph) = .ok result ∧ ∀ first ∈ graph,
      (∀ x, graph.Reaches first x → graph.ReachesExit x → result.successors x = [] →
        (DominatorForest.backward graph).dominates x first = true) ∧
      (∀ x controller, (DominatorForest.backward graph).dominates x first = true →
        result.HasEdge x controller → graph.Reaches first controller →
        ∃ cycle, graph.IsCycle cycle ∧ x ∈ cycle ∧ controller ∈ cycle) ∧
      (graph.Acyclic → (∀ id ∈ graph, graph.Reaches first id) → ∀ x,
        (graph.ReachesExit x ∧ result.successors x = []) ↔
          ∀ exit path, graph.IsExit exit → graph.Walk first exit path → x ∈ path) := by
  have coherent := built.coherent
  obtain ⟨result, succeeded, exact_edges⟩ := controlDependence_oneEdgeEach coherent
  have no_edge : ∀ x, result.successors x = [] ↔ ∀ controller, ¬ graph.DependsOn x controller := by
    intro x
    rw [← List.isEmpty_iff, Graph.isEmpty_successors_iff]
    simp only [exact_edges.hasEdge_iff]
  refine ⟨result, succeeded, fun first member => ⟨?_, ?_, fun acyclic all_reached x => ?_⟩⟩
  · rintro x ⟨path, walk⟩ reaches_exit independent
    rw [no_edge] at independent
    exact (dominates_backward_iff coherent).mpr
      ⟨Graph.Reaches.reachesExit ⟨path, walk⟩ reaches_exit,
      Graph.onEveryExitWalk_of_independent reaches_exit independent walk⟩
  · intro x controller postdominates depends reached
    exact Graph.exists_cycle_of_dependsOn ((dominates_backward_iff coherent).mp postdominates).2
      (exact_edges.hasEdge_iff.mp depends) reached
  · rw [no_edge]
    exact acyclic.independent_iff coherent member all_reached

/-- After the first node, the second and the third one are run until the third one goes on to the
last. -/
def repeating : Graph Unit Unit :=
  let nodes : Graph Unit Unit :=
    ((((∅ : Graph Unit Unit).insertNode 0 ()).insertNode 1 ()).insertNode 2 ()).insertNode 3 ()
  (((nodes.addEdge 0 1 ()).addEdge 1 2 ()).addEdge 2 1 ()).addEdge 2 3 ()

/-- Two ways lead from the first node to the last one. -/
def forking : Graph Unit Unit :=
  let nodes : Graph Unit Unit :=
    ((((∅ : Graph Unit Unit).insertNode 0 ()).insertNode 1 ()).insertNode 2 ()).insertNode 3 ()
  (((nodes.addEdge 0 1 ()).addEdge 0 2 ()).addEdge 1 3 ()).addEdge 2 3 ()

private theorem Graph.reaches_of_mem_postorder {graph : Graph N E} (coherent : graph.Coherent)
    {first id : Nat} (listed : id ∈ graph.postorder [first]) : graph.Reaches first id := by
  obtain ⟨root, is_first, reaches⟩ := (mem_postorder coherent).mp listed
  exact List.mem_singleton.mp is_first ▸ reaches

/-- The last node of the loop depends on nothing, and the first one depends on the last one although
it is always run. Without the loop, only the two ways between the first and the last node are
decided about. -/
theorem repeating_unconditional :
    repeating.Built ∧ forking.Built ∧ forking.Acyclic ∧
      (∃ result, controlDependence repeating (.backward repeating) = .ok result ∧
        result.successors 3 = [] ∧
        (DominatorForest.backward repeating).dominates 3 0 = true ∧
        (DominatorForest.backward repeating).dominates 1 0 = true ∧ result.HasEdge 1 2 ∧
        ∃ cycle, repeating.IsCycle cycle ∧ 1 ∈ cycle ∧ 2 ∈ cycle) ∧
      ∃ result, controlDependence forking (.backward forking) = .ok result ∧
        result.successors 3 = [] ∧
        (∀ exit path, forking.IsExit exit → forking.Walk 0 exit path → 3 ∈ path) ∧
        ¬ ∀ exit path, forking.IsExit exit → forking.Walk 0 exit path → 1 ∈ path := by
  have nodes :
      ((((∅ : Graph Unit Unit).insertNode 0 ()).insertNode 1 ()).insertNode 2 ()).insertNode 3 ()
        |>.Built :=
    (((Graph.Built.empty.insertNode 0 ()).insertNode 1 ()).insertNode 2 ()).insertNode 3 ()
  have repeating_built : repeating.Built :=
    (((nodes.addEdge 0 1 () (by decide) (by decide)).addEdge 1 2 () (by decide) (by decide)).addEdge
      2 1 () (by decide) (by decide)).addEdge 2 3 () (by decide) (by decide)
  have forking_built : forking.Built :=
    (((nodes.addEdge 0 1 () (by decide) (by decide)).addEdge 0 2 () (by decide) (by decide)).addEdge
      1 3 () (by decide) (by decide)).addEdge 2 3 () (by decide) (by decide)
  have acyclic : forking.Acyclic := Graph.acyclic_of_rank (fun id => id) (by decide +kernel)
  have all_reached : ∀ id ∈ forking, forking.Reaches 0 id := by
    have listed : ∀ id ∈ forking.ids, id ∈ forking.postorder [0] := by decide +kernel
    exact fun id member =>
      Graph.reaches_of_mem_postorder forking_built.coherent (listed id (Graph.mem_ids.mpr member))
  have computed : (controlDependence repeating (.backward repeating)).toOption.map (fun result =>
      (result.successors 3, result.edgeLabels 1 2)) = some ([], [()]) := by decide +kernel
  have forked : (controlDependence forking (.backward forking)).toOption.map (fun result =>
      (result.successors 3, result.successors 1)) = some ([], [(0, ())]) := by decide +kernel
  obtain ⟨repeated, succeeded, looped⟩ := controlDependence_unconditional repeating repeating_built
  obtain ⟨split, also_succeeded, straight⟩ := controlDependence_unconditional forking forking_built
  simp only [succeeded, also_succeeded, Except.toOption, Option.map_some, Option.some.injEq,
    Prod.mk.injEq] at computed forked
  have exit : repeating.IsExit 3 := Graph.mem_boundary_backward.mp (by decide +kernel)
  have postdominates : (DominatorForest.backward repeating).dominates 1 0 = true := by
    decide +kernel
  have decided : repeated.HasEdge 1 2 := ⟨(), by rw [computed.2]; exact List.mem_singleton_self ()⟩
  have everywhere := (straight 0 (by decide +kernel)).2.2 acyclic all_reached
  have last_reaches : forking.ReachesExit 3 :=
    acyclic.reachesExit forking_built.coherent (by decide +kernel)
  refine ⟨repeating_built, forking_built, acyclic,
    ⟨repeated, succeeded, computed.1, ?_, postdominates, decided, ?_⟩,
    split, also_succeeded, forked.1, (everywhere 3).mp ⟨last_reaches, forked.1⟩, fun one_way => ?_⟩
  · exact (looped 0 (by decide +kernel)).1 3
      (Graph.reaches_of_mem_postorder repeating_built.coherent (by decide +kernel))
      ⟨3, exit, Graph.reaches_refl exit.1⟩ computed.1
  · exact (looped 0 (by decide +kernel)).2.1 1 2 postdominates decided
      (Graph.reaches_of_mem_postorder repeating_built.coherent (by decide +kernel))
  · have free := ((everywhere 1).mpr one_way).2
    rw [forked.2] at free
    cases free

end FlowIR
