import FlowIR.Proofs.ControlFlow.Edges
import FlowIR.Proofs.Dominance.Unconditional
import FlowIR.Proofs.Graph.Dot
import FlowIR.Proofs.Link.OwnerIndex
import Mathlib.Data.List.Sort

/-!
# The clusters of a dependence graph

The text of a dependence graph puts the instructions of a block into a cluster. A node is asked for
its block, and the clusters come from the list of blocks of the function. In a linked module the two
agree, so no instruction is lost and none stands in two clusters. A block has its instructions in
the order of their numbers, which is also the order of the nodes, so a cluster reads like its block.
-/
namespace FlowIR

/-! ### Clustered text -/

namespace Dot

/-- Nodes that are drawn together, under a title. -/
structure Cluster where
  id : Nat
  title : String
  nodes : List (Nat × String)

namespace Cluster

def declared (cluster : Cluster) : List Nat := cluster.nodes.map Prod.fst

def text (cluster : Cluster) : String :=
  s!"  subgraph cluster_{cluster.id} \x7b\n" ++ "    label=\"" ++ escape cluster.title ++ "\"\n"
    ++ String.join (cluster.nodes.map fun (id, text) => "  " ++ nodeLine id text) ++ "  \x7d\n"

end Cluster

/-- The text of a graph whose nodes stand in clusters and whose edges have no labels. -/
def clustered (title : String) (clusters : List Cluster) (edges : List (Nat × Nat)) : String :=
  "digraph " ++ ("\"" ++ escape title ++ "\"") ++ " \x7b\n" ++
    String.join (clusters.map Cluster.text) ++ "\n"
    ++ String.join (edges.map fun (source, target) => edgeLine source target none) ++ "\x7d\n"

/-- What stands before each element of a list and once more at its end stands also behind each
element. -/
theorem flatMap_append_shift {α : Type} (text : List Char) (write : α → List Char)
    (values : List α) :
    values.flatMap (fun value => text ++ write value) ++ text =
      text ++ values.flatMap fun value => write value ++ text := by
  induction values with
  | nil => simp
  | cons value rest ih => simp only [List.flatMap_cons, List.append_assoc, ih]

private theorem Cluster.toList_text (cluster : Cluster) :
    cluster.text.toList = "  subgraph cluster_".toList ++
    (Nat.toDigits 10 cluster.id ++ (" \x7b\n    label=\"".toList ++
      ((cluster.title.toList.flatMap escapeChar ++ ['"']) ++ ("\n  ".toList ++
        (cluster.nodes.flatMap (fun node => (nodeLine node.1 node.2).toList ++ "  ".toList) ++
          ['\x7d'] ++ "\n".toList))))) := by
  have shifted := flatMap_append_shift "  ".toList
    (fun node : Nat × String => (nodeLine node.1 node.2).toList) cluster.nodes
  have closed := congrArg (· ++ "\x7d\n".toList) shifted
  -- A rewrite with the definition would try to compare the two texts as they stand.
  unfold text
  simpa [escape, toString, Nat.toList_repr, String.toList_join, List.flatMap_map] using closed

private theorem delimits_cluster : Delimits fun cluster : Cluster => cluster.text.toList := by
  -- A node begins with a blank, and the blanks before the closing brace are counted to the node
  -- before it.
  have nodes := (delimits_nodeLine.before "  ".toList).list '\x7d' fun node =>
    ⟨' ', by simp [nodeLine], by decide⟩
  have titled := delimits_quoted.append ((nodes.before "\n".toList).behind "\n  ".toList)
  have numbered := delimits_number (titled.behind " \x7b\n    label=\"".toList) fun both =>
    ⟨' ', by simp, by decide⟩
  have parts : Function.Injective fun cluster : Cluster =>
      (cluster.id, cluster.title, cluster.nodes) := by
    rintro ⟨id, title, nodes⟩ ⟨id', title', nodes'⟩ same
    simpa using same
  simpa only [Cluster.toList_text] using (numbered.behind "  subgraph cluster_".toList).comp parts

private theorem toList_clustered (title : String) (clusters : List Cluster)
    (edges : List (Nat × Nat)) :
    (clustered title clusters edges).toList =
      ("digraph " ++ ("\"" ++ escape title ++ "\"") ++ " \x7b\n").toList ++
      ((clusters.flatMap (fun cluster => cluster.text.toList) ++ ['\n']) ++
        (edges.flatMap (fun edge => (edgeLine edge.1 edge.2 none).toList) ++ ['\x7d'] ++
          ['\n'])) := by
  unfold clustered
  simp [String.toList_join, List.flatMap_map]

/-- A clustered text tells its clusters and its edges, both in order. -/
theorem clustered_inj {title : String} {clusters otherClusters : List Cluster}
    {edges otherEdges : List (Nat × Nat)}
    (same : clustered title clusters edges = clustered title otherClusters otherEdges) :
    clusters = otherClusters ∧ edges = otherEdges := by
  have begins : ∀ cluster : Cluster, ∃ c, cluster.text.toList.head? = some c ∧ c ≠ '\n' :=
    fun cluster => ⟨' ', by simp [Cluster.toList_text], by decide⟩
  have unlabelled : Function.Injective fun edge : Nat × Nat =>
      Graph.Edge.mk edge.1 edge.2 (none : Option String) := by
    rintro ⟨source, target⟩ ⟨source', target'⟩ same
    simpa using same
  have edgeLines := (delimits_edgeLine.comp unlabelled).list '\x7d' fun edge =>
    ⟨' ', by simp [edgeLine], by decide⟩
  have texts := congrArg String.toList same
  rw [toList_clustered, toList_clustered] at texts
  obtain ⟨rfl, remains⟩ := (delimits_cluster.list '\n' begins).split (List.append_cancel_left texts)
  obtain ⟨rfl, _⟩ := edgeLines.split remains
  exact ⟨rfl, rfl⟩

end Dot

/-! ### Edges -/

/-- No two edges have the same ends. -/
theorem Graph.OneEdgeEach.nodup_ends {N : Type} {graph : Graph N Unit} {labels : Nat → Option N}
    {pairs : Nat × Nat → Prop} (exact_edges : graph.OneEdgeEach labels pairs) :
    (graph.edges.map fun edge => (edge.source, edge.target)).Nodup := by
  have distinct : graph.edges.Nodup := by
    rw [List.nodup_iff_count_le_one]
    intro edge
    rw [← count_labelsBetween, labelsBetween_edges]
    by_cases pair : pairs (edge.source, edge.target)
    · rw [exact_edges.present pair]
      exact List.count_le_length
    · rw [exact_edges.missing pair]
      exact Nat.zero_le 1
  -- The labels are all the same, so an edge is known by its ends.
  refine distinct.map ?_
  rintro ⟨source, target, _⟩ ⟨source', target', _⟩ same
  simpa using same

/-! ### The members of a cluster -/

namespace Module

variable {module : Module} {function block id : ValueId} {info : FunctionInfo}

private theorem OwnersFound.blockOf?_eq (owners : module.OwnersFound)
    (found : module.function? function = some info) (listed : block ∈ info.blocks)
    (inside : id ∈ module.instructionsIn block) : module.blockOf? id = some block := by
  obtain ⟨body, block_found, member⟩ := mem_instructionsIn.mp inside
  obtain ⟨_, _, _, block_found_too, instructions⟩ := owners.blocks function info found block listed
  obtain rfl := Option.some.inj (block_found.symm.trans block_found_too)
  exact (instructions id member).2.1

/-- The cluster of a block, with texts from outside. -/
def clusterOf (module : Module) (title text : ValueId → String) (block : ValueId) : Dot.Cluster :=
  { id := block, title := title block,
    nodes := (module.instructionsIn block).map fun id => (id, text id) }

/-- The clusters of the blocks that have instructions. -/
def clustersOf (module : Module) (title text : ValueId → String)
    (blocks : List ValueId) : List Dot.Cluster :=
  (blocks.filter fun block => module.instructionsIn block ≠ []).map (module.clusterOf title text)

private theorem declared_clusterOf (title text : ValueId → String) (block : ValueId) :
    (module.clusterOf title text block).declared = module.instructionsIn block := by
  simp [clusterOf, Dot.Cluster.declared, Function.comp_def]

end Module

/-- The instructions of a block of a linked module stand in the order of their numbers. -/
theorem Table.pairwise_instructionsIn_of_link {table : Table} {module : Module}
    (linked : table.link = .ok module) (block : ValueId) :
    (module.instructionsIn block).Pairwise (· < ·) := by
  cases found : module.block? block with
  | none => simp [Module.instructionsIn, found]
  | some body =>
    obtain ⟨number, is_linked, _⟩ := exists_owners_of_link linked
    have well_formed := wellFormed_of_link linked
    obtain ⟨_, key, has_block, _, instructions⟩ := is_linked.exists_hasBlock well_formed found
    -- The keys were numbered along one list, in which those of the block stand in their own order.
    simp only [Module.instructionsIn, found, Option.map_some, Option.getD_some, instructions]
    exact is_linked.pairwise_lt_map (has_block.sublist_listedKeys well_formed)

namespace DependenceGraph

variable {module : Module} {function block : ValueId} {info : FunctionInfo} {flow : FlowGraph}
  {dependence : DependenceGraph}

section

variable (succeeded : FlowGraph.ofFunction module function = .ok flow)
  (same_labels : ∀ id, dependence.graph.label? id = flow.graph.label? id)
include succeeded same_labels

/-- Every node is labelled by itself. -/
theorem map_snd_nodes : dependence.graph.nodes.map Prod.snd = dependence.graph.ids := by
  rw [← Graph.map_fst_nodes]
  refine List.map_congr_left fun node member => ?_
  have labelled := Graph.mem_nodes.mp member
  rw [same_labels] at labelled
  exact ((FlowGraph.label?_eq_some_iff succeeded).mp labelled).1

/-- The nodes that belong to a block are its instructions. Both lists are in increasing order. -/
theorem members_eq (owners : module.OwnersFound)
    (increasing : (module.instructionsIn block).Pairwise (· < ·))
    (found : module.function? function = some info) (listed : block ∈ info.blocks) :
    dependence.members module block = module.instructionsIn block := by
  rw [members, map_snd_nodes succeeded same_labels]
  refine (dependence.graph.pairwise_lt_ids.filter _).eq_of_mem_iff increasing fun id => ?_
  have node_iff : id ∈ dependence.graph.ids ↔ id ∈ info.blocks.flatMap module.instructionsIn := by
    rw [Graph.mem_ids, Graph.mem_iff_label?, same_labels, ← Graph.mem_iff_label?,
      FlowGraph.mem_iff succeeded, Module.instructionsOf_eq found]
  rw [List.mem_filter, node_iff, decide_eq_true_eq]
  -- The owner of a node leads to the list of the block, and this list leads back to the owner.
  constructor
  · rintro ⟨_, owned⟩
    exact Module.mem_instructionsIn.mpr (owners.mem_of_blockOf? id block owned)
  · intro inside
    exact ⟨List.mem_flatMap.mpr ⟨block, listed, inside⟩, owners.blockOf?_eq found listed inside⟩

end

/-! ### The text -/

variable {title text : ValueId → String}

private theorem cluster?_eq
    (members_eq : dependence.members module block = module.instructionsIn block)
    (titled : module.operandName? block = some (title block))
    (printed : ∀ id ∈ module.instructionsIn block, module.valueText? id = some (text id)) :
    dependence.cluster? module block =
      some (if module.instructionsIn block = [] then ""
        else (module.clusterOf title text block).text) := by
  have lines : (module.instructionsIn block).mapM
      (fun id => return "  " ++ Dot.nodeLine id (← module.valueText? id)) =
      some ((module.instructionsIn block).map fun id => "  " ++ Dot.nodeLine id (text id)) := by
    rw [mapM_congr fun id inside => by rw [printed id inside]]
    exact List.mapM_pure
  unfold cluster?
  rw [members_eq]
  by_cases empty : module.instructionsIn block = []
  · simp [empty]
  · have texts : (module.clusterOf title text block).nodes.map
        (fun node => "  " ++ Dot.nodeLine node.1 node.2) =
        (module.instructionsIn block).map fun id => "  " ++ Dot.nodeLine id (text id) := by
      simp [Module.clusterOf, Function.comp_def]
    rw [if_neg empty, if_neg (by simpa using empty), titled, lines]
    -- Only now do both sides write the same pieces: texts that differ are expensive to compare.
    unfold Dot.Cluster.text
    rw [texts]
    rfl

/-- A block without instructions has no text. -/
theorem join_clusters (blocks : List ValueId) :
    String.join (blocks.map fun block =>
        if module.instructionsIn block = [] then "" else (module.clusterOf title text block).text) =
      String.join ((module.clustersOf title text blocks).map Dot.Cluster.text) := by
  -- Among characters the empty texts are gone.
  apply String.toList_injective
  rw [String.toList_join, String.toList_join, Module.clustersOf]
  induction blocks with
  | nil => rfl
  | cons block rest ih => by_cases empty : module.instructionsIn block = [] <;> simp [empty, ih]

private theorem toDot?_eq (same_function : dependence.function = function)
    (found : module.function? function = some info)
    (named : module.operandName? function = some (title function))
    (each : ∀ block ∈ info.blocks,
      dependence.cluster? module block = some (if module.instructionsIn block = [] then ""
      else (module.clusterOf title text block).text)) :
    dependence.toDot? module =
      some (Dot.clustered (title function) (module.clustersOf title text info.blocks)
      (dependence.graph.edges.map fun edge => (edge.source, edge.target))) := by
  have clusters : info.blocks.mapM (dependence.cluster? module) = some (info.blocks.map fun block =>
      if module.instructionsIn block = [] then ""
          else (module.clusterOf title text block).text) := by
    rw [mapM_congr each]
    exact List.mapM_pure
  have edgeLines :
      dependence.graph.edges.map (fun edge => Dot.edgeLine edge.source edge.target none) =
      (dependence.graph.edges.map fun edge => (edge.source, edge.target)).map fun edge =>
        Dot.edgeLine edge.1 edge.2 none := by
    simp [Function.comp_def]
  unfold toDot? Module.graphName?
  rw [same_function, named, found, Option.map_some, Option.map_some, Option.getD_some]
  dsimp only
  rw [clusters]
  unfold Dot.clustered
  rw [← join_clusters, ← edgeLines]
  rfl

end DependenceGraph

/-! ### Clusters of a function -/

/-- The clusters show the instructions of the function, block by block. -/
structure Module.IsClustering (module : Module) (function : ValueId)
    (clusters : List Dot.Cluster) : Prop where
  /-- Only blocks without instructions are left out. -/
  blocks : ∃ info, module.function? function = some info ∧
    clusters.map Dot.Cluster.id = info.blocks.filter fun block => module.instructionsIn block ≠ []
  titles : ∀ cluster ∈ clusters, module.operandName? cluster.id = some cluster.title
  texts : ∀ cluster ∈ clusters, ∀ node ∈ cluster.nodes, module.valueText? node.1 = some node.2
  instructions : ∀ cluster ∈ clusters, cluster.declared = module.instructionsIn cluster.id
  increasing : ∀ cluster ∈ clusters, cluster.declared.Pairwise (· < ·)
  owners : ∀ cluster ∈ clusters, ∀ id ∈ cluster.declared, module.blockOf? id = some cluster.id
  once : ∀ id, (clusters.flatMap Dot.Cluster.declared).count id =
    if id ∈ module.instructionsOf function then 1 else 0

namespace Module

variable {module : Module} {function : ValueId} {info : FunctionInfo}
  {title text : ValueId → String}

private theorem flatMap_declared_clustersOf (blocks : List ValueId) :
    (module.clustersOf title text blocks).flatMap Dot.Cluster.declared =
      blocks.flatMap module.instructionsIn := by
  simp only [clustersOf, List.flatMap_map, declared_clusterOf, ne_eq, decide_not]
  induction blocks with
  | nil => rfl
  | cons block rest ih => by_cases empty : module.instructionsIn block = [] <;> simp [empty, ih]

private theorem isClustering_clustersOf (nested : module.Nested) (owners : module.OwnersFound)
    (increasing : ∀ block, (module.instructionsIn block).Pairwise (· < ·))
    (listed : function ∈ module.functions) (found : module.function? function = some info)
    (titled : ∀ block ∈ info.blocks, module.operandName? block = some (title block))
    (printed : ∀ block ∈ info.blocks, ∀ id ∈ module.instructionsIn block,
      module.valueText? id = some (text id)) :
    module.IsClustering function (module.clustersOf title text info.blocks) := by
  have from_block : ∀ cluster ∈ module.clustersOf title text info.blocks,
      ∃ block ∈ info.blocks, module.clusterOf title text block = cluster := by
    intro cluster member
    obtain ⟨block, kept, rfl⟩ := List.mem_map.mp member
    exact ⟨block, List.mem_of_mem_filter kept, rfl⟩
  constructor
  case blocks => exact ⟨info, found, by simp [clustersOf, clusterOf, Function.comp_def]⟩
  case titles =>
    intro cluster member
    obtain ⟨block, block_listed, rfl⟩ := from_block cluster member
    exact titled block block_listed
  case texts =>
    intro cluster member node inside
    obtain ⟨block, block_listed, rfl⟩ := from_block cluster member
    obtain ⟨id, instruction, rfl⟩ := List.mem_map.mp inside
    exact printed block block_listed id instruction
  case instructions =>
    intro cluster member
    obtain ⟨block, _, rfl⟩ := from_block cluster member
    exact declared_clusterOf title text block
  case increasing =>
    intro cluster member
    obtain ⟨block, _, rfl⟩ := from_block cluster member
    rw [declared_clusterOf]
    exact increasing block
  case owners =>
    intro cluster member id inside
    obtain ⟨block, block_listed, rfl⟩ := from_block cluster member
    rw [declared_clusterOf] at inside
    exact owners.blockOf?_eq found block_listed inside
  case once =>
    intro id
    rw [flatMap_declared_clustersOf, instructionsOf_eq found]
    exact (nested.nodup_instructions listed found).count

end Module

namespace Table

variable {table : Table} {module : Module} {function : ValueId} {flow : FlowGraph}

/-- The text of the dependence graph of a linked function declares each instruction once, in the
cluster of its block, and has one line for each dependency. It can be read in no other way. -/
theorem clustered_of_link (linked : table.link = .ok module)
    (succeeded : FlowGraph.ofFunction module function = .ok flow) :
    ∃ dependence title clusters edges, DependenceGraph.ofFlow flow = .ok dependence ∧
      module.operandName? function = some title ∧ module.IsClustering function clusters ∧
      edges = dependence.graph.edges.map (fun edge => (edge.source, edge.target)) ∧ edges.Nodup ∧
      (∀ id controller, (id, controller) ∈ edges ↔ flow.graph.DependsOn id controller) ∧
      ∀ otherClusters otherEdges,
        dependence.toDot? module = some (Dot.clustered title otherClusters otherEdges) ↔
        otherClusters = clusters ∧ otherEdges = edges := by
  have sound := sound_of_link linked
  have owners := ownersFound_of_link linked
  obtain ⟨info, found, _⟩ := FlowGraph.graph_of_ofFunction succeeded
  have listed := mem_functions_of_link linked found
  obtain ⟨dependence, computed, same_function, _, exact_edges⟩ :=
    DependenceGraph.exists_ofFlow succeeded
  -- Everything that is named or printed is a value of the module.
  have named : ∀ id < module.values.length, ∃ name, module.operandName? id = some name :=
    fun id bound => Option.isSome_iff_exists.mp (sound.isSome_operandName? bound)
  have shown : ∀ id < module.values.length, ∃ text, module.valueText? id = some text :=
    fun id bound => Option.isSome_iff_exists.mp (sound.isSome_valueText? bound)
  choose! title title_eq using named
  choose! text text_eq using shown
  have titled : ∀ block ∈ info.blocks, module.operandName? block = some (title block) := by
    intro block block_listed
    obtain ⟨_, _, _, block_found, _⟩ := owners.blocks function info found block block_listed
    exact title_eq block (Module.lt_of_content? (Module.content?_of_block? block_found))
  have printed : ∀ block ∈ info.blocks, ∀ id ∈ module.instructionsIn block,
      module.valueText? id = some (text id) := by
    intro block block_listed id inside
    have member : id ∈ flow.graph := by
      rw [FlowGraph.mem_iff succeeded, Module.instructionsOf_eq found]
      exact List.mem_flatMap.mpr ⟨block, block_listed, inside⟩
    exact text_eq id (sound.lt_of_mem listed succeeded member)
  have increasing := pairwise_instructionsIn_of_link linked
  have rendered := DependenceGraph.toDot?_eq same_function found
    (title_eq function (sound.function_lt listed))
    fun block block_listed => DependenceGraph.cluster?_eq
      (DependenceGraph.members_eq succeeded exact_edges.same_labels owners (increasing block)
        found block_listed)
      (titled block block_listed) (printed block block_listed)
  refine ⟨dependence, title function, _, _, computed, title_eq function (sound.function_lt listed),
    Module.isClustering_clustersOf (nested_of_link linked) owners increasing listed found
      titled printed, rfl,
    exact_edges.nodup_ends, fun id controller => ?_, fun otherClusters otherEdges => ?_⟩
  · rw [List.mem_map, ← exact_edges.hasEdge_iff, Graph.hasEdge_iff_mem_edges]
    simp
  · rw [rendered, Option.some.injEq]
    constructor
    · intro same
      obtain ⟨clusters_eq, edges_eq⟩ := Dot.clustered_inj same
      exact ⟨clusters_eq.symm, edges_eq.symm⟩
    · rintro ⟨rfl, rfl⟩
      rfl

/-- A branch around the third block. The second block is empty. -/
def bypassing : Table :=
  { types := [{ key := 1, ty := .integer 1 }]
    values :=
      [{ key := 20, tag := .constant .int, ty := 1, payload := .constant { intValue := some 1 } },
       { key := 30, tag := .function, ty := 1,
         payload := .function { blocks := [40, 41, 42, 43] } },
       { key := 40, tag := .basicBlock, ty := 1, payload := .block { instructions := [50, 51] } },
       { key := 41, tag := .basicBlock, ty := 1, payload := .block {} },
       { key := 42, tag := .basicBlock, ty := 1, payload := .block { instructions := [52] } },
       { key := 43, tag := .basicBlock, ty := 1, payload := .block { instructions := [53] } },
       { key := 50, tag := .instruction .alloca, ty := 1 },
       { key := 51, tag := .instruction .br, ty := 1,
         payload := .instruction { operands := [20, 42, 43] } },
       { key := 52, tag := .instruction .br, ty := 1,
         payload := .instruction { operands := [43] } },
       { key := 53, tag := .instruction .ret, ty := 1 }]
    functions := [30] }

/-- Three of the four blocks have a cluster, and the only edge leads from the third block to the
branch. -/
theorem bypassing_clustered : ∃ module flow dependence title clusters, bypassing.link = .ok module ∧
    FlowGraph.ofFunction module 0 = .ok flow ∧ DependenceGraph.ofFlow flow = .ok dependence ∧
    dependence.toDot? module = some (Dot.clustered title clusters [(6, 3)]) ∧
    clusters.map Dot.Cluster.id = [1, 5, 7] ∧
    clusters.map Dot.Cluster.declared = [[2, 3], [6], [8]] := by
  have run :
      (bypassing.link.toOption.bind fun module =>
        (FlowGraph.ofFunction module 0).toOption.bind fun flow =>
        (DependenceGraph.ofFlow flow).toOption.map fun dependence =>
        ((module.function? 0).map fun info =>
          info.blocks.filter fun block => module.instructionsIn block ≠ [],
          [1, 5, 7].map module.instructionsIn,
          dependence.graph.edges.map fun edge => (edge.source, edge.target))) =
      some (some [1, 5, 7], [[2, 3], [6], [8]], [(6, 3)]) := by
    decide +kernel
  obtain ⟨module, linked, run⟩ := exists_ok_of_toOption_bind run
  obtain ⟨flow, succeeded, run⟩ := exists_ok_of_toOption_bind run
  obtain ⟨dependence, title, clusters, edges, computed, _, clustering, listed, _, _, reads⟩ :=
    clustered_of_link linked succeeded
  obtain ⟨info, found, ids⟩ := clustering.blocks
  simp only [computed, found, Except.toOption, Option.map_some, Option.some.injEq, Prod.mk.injEq,
    ← listed] at run
  obtain ⟨blocks, instructions, rfl⟩ := run
  have declared : clusters.map Dot.Cluster.declared =
      (clusters.map Dot.Cluster.id).map module.instructionsIn := by
    rw [List.map_map]
    exact List.map_congr_left clustering.instructions
  refine ⟨module, flow, dependence, title, clusters, linked, succeeded, computed,
    (reads _ _).mpr ⟨rfl, rfl⟩, ids.trans blocks, ?_⟩
  rw [declared, ids.trans blocks, instructions]

end Table

end FlowIR
