import FlowIR.ControlFlow.Dot
import FlowIR.Proofs.Escape.Summary
import FlowIR.Proofs.Graph.Bounds
import FlowIR.Proofs.Graph.Preorder
import FlowIR.Proofs.Module.Text

/-!
# The graphs of the functions of a sound module

Control stays inside of each function of a sound module, so the edges of its control flow graph join
its own instructions. The graph is missing only if the function has no instruction to start with,
and everything that the texts of the graph and of the dependence graph name is a value of the
module.
-/
namespace FlowIR

/-! ### Branches -/

namespace Instruction

variable {id : ValueId} {instruction : Instruction}

theorem map_fst_branches (id : ValueId) (instruction : Instruction) :
    (instruction.branches id).map Prod.fst = instruction.successorBlocks := by
  cases instruction <;> simp [branches, successorBlocks, Function.comp_def]

/-- The value of a case is an operand. -/
theorem case_mem_operands {target condition value : ValueId}
    (listed : (target, .onCase condition value) ∈ instruction.branches id) :
    value ∈ instruction.operands := by
  cases instruction with
  | switch _ _ cases =>
    simp only [branches, List.mem_cons, Prod.mk.injEq, reduceCtorEq, and_false, List.mem_map,
      false_or] at listed
    obtain ⟨⟨first, second⟩, member, _, same⟩ := listed
    obtain ⟨_, rfl⟩ := FlowKind.onCase.inj same
    simp only [operands, flattenPairs, List.mem_cons, List.mem_flatMap]
    exact Or.inr (Or.inr ⟨_, member, by simp⟩)
  | _ => simp [branches] at listed

end Instruction

namespace FlowGraph

variable {module : Module} {block : BlockInfo} {edge : Graph.Edge FlowKind}

theorem ends_of_mem_fallthroughEdges (listed : edge ∈ fallthroughEdges block) :
    edge.source ∈ block.instructions ∧ edge.target ∈ block.instructions ∧
      edge.label = .fallthrough := by
  obtain ⟨⟨source, target⟩, neighbours, rfl⟩ := List.mem_map.mp listed
  obtain ⟨source_mem, target_mem⟩ := List.of_mem_zip neighbours
  exact ⟨source_mem, List.mem_of_mem_tail target_mem, rfl⟩

/-- A branch goes from the last instruction of a block to the first one of another block. -/
theorem exists_branch_of_mem_branchEdges (listed : edge ∈ branchEdges module block) :
    edge.source ∈ block.instructions ∧ ∃ instruction target body,
      module.instruction? edge.source = some instruction ∧
      (target, edge.label) ∈ instruction.branches edge.source ∧ module.block? target = some body ∧
      edge.target ∈ body.instructions := by
  rw [branchEdges] at listed
  split at listed
  · simp at listed
  next source last =>
    obtain ⟨⟨target, label⟩, branch, found⟩ := List.mem_filterMap.mp listed
    cases instruction_found : module.instruction? source with
    | none => simp [instruction_found] at branch
    | some instruction =>
      simp only [instruction_found, Option.map_some, Option.getD_some] at branch
      obtain ⟨body, body_found, first, begins, rfl⟩ : ∃ body, module.block? target = some body ∧
          ∃ first, body.first? = some first ∧ { source, target := first, label } = edge := by
        simpa [Option.bind_eq_some_iff, bind, pure] using found
      exact ⟨List.mem_of_getLast? last, instruction, target, body, instruction_found,
        branch, body_found, List.mem_of_head? begins⟩

end FlowGraph

/-! ### Control dependence -/

private theorem controlDependence_coherent {N E : Type} {graph : Graph N E}
    {forest : DominatorForest} {result : Graph N Unit}
    (computed : controlDependence graph forest = .ok result) : result.Coherent := by
  refine Graph.foldlM_keeps Graph.Coherent computed (Graph.Coherent.isolated graph.nodes) ?_
  intro current next pair _ coherent added
  rw [addDependence] at added
  split at added
  · exact coherent.insertEdge added
  · exact Except.ok.inj added ▸ coherent

namespace DependenceGraph

/-- The dependence graph exists, its nodes are those of the control flow graph, and its edges are
the direct dependencies. -/
theorem exists_ofFlow {module : Module} {function : ValueId} {flow : FlowGraph}
    (succeeded : FlowGraph.ofFunction module function = .ok flow) :
    ∃ dependence, ofFlow flow = .ok dependence ∧ dependence.function = function ∧
      dependence.graph.Coherent ∧
      dependence.graph.OneEdgeEach flow.graph.label? fun pair =>
        flow.graph.DependsOn pair.1 pair.2 := by
  obtain ⟨built, same_function, reversed, exits⟩ := FlowGraph.ofFunction_spec succeeded
  obtain ⟨result, computed, edges⟩ := controlDependence_oneEdgeEach built.coherent
  have postdominators : flow.postdominators = .backward flow.graph := by
    rw [FlowGraph.postdominators, FlowGraph.backward, reversed, exits,
      FlowGraph.exits_eq_boundary built.coherent]
    rfl
  have forward : flow.forward = flow.graph := by
    rw [FlowGraph.forward, reversed]
    rfl
  refine ⟨{ function := flow.function, graph := result }, ?_, same_function, ?_, edges⟩
  · rw [ofFlow, postdominators, forward, computed]
  · exact controlDependence_coherent computed

/-- A traversal from a node enters that node first. -/
theorem exists_transitive {dependence : DependenceGraph} {id : ValueId}
    (member : id ∈ dependence.graph) :
    ∃ others, dependence.transitive id = .ok others := by
  obtain ⟨others, begins⟩ := Graph.preorder_eq_cons member
  rw [transitive, begins]
  exact ⟨others, if_pos rfl⟩

end DependenceGraph

namespace Module.Sound

variable {module : Module} (sound : module.Sound)
include sound

/-! ### Edges -/

section

variable {info : FunctionInfo} (inside : ∀ block ∈ info.blocks, module.RunsWithin info.blocks block)
include inside

/-- Every edge joins instructions of the function, and its text names nothing else than values. -/
theorem flow_edge {edge : Graph.Edge FlowKind}
    (listed : edge ∈ (info.blocks.filterMap module.block?).flatMap fun block =>
      FlowGraph.fallthroughEdges block ++ FlowGraph.branchEdges module block) :
    edge.source ∈ (info.blocks.filterMap module.block?).flatMap BlockInfo.instructions ∧
      edge.target ∈ (info.blocks.filterMap module.block?).flatMap BlockInfo.instructions ∧
      (edge.label.text? module).isSome = true := by
  obtain ⟨block, block_listed, edge_listed⟩ := List.mem_flatMap.mp listed
  rcases List.mem_append.mp edge_listed with neighbour | branch
  · obtain ⟨source_mem, target_mem, label⟩ := FlowGraph.ends_of_mem_fallthroughEdges neighbour
    refine ⟨List.mem_flatMap.mpr ⟨block, block_listed, source_mem⟩,
      List.mem_flatMap.mpr ⟨block, block_listed, target_mem⟩, ?_⟩
    rw [label]
    rfl
  · obtain ⟨source_mem, instruction, target, body, found, branches, target_found, target_mem⟩ :=
      FlowGraph.exists_branch_of_mem_branchEdges branch
    -- The block was checked when it was linked: its branches stay among the blocks of the function.
    obtain ⟨id, id_listed, at_id⟩ := List.mem_filterMap.mp block_listed
    obtain ⟨other, at_id_too, instructions⟩ := inside id id_listed
    obtain rfl := Option.some.inj (at_id.symm.trans at_id_too)
    obtain ⟨_, found_too, targets⟩ := instructions edge.source source_mem
    obtain rfl := Option.some.inj (found.symm.trans found_too)
    have target_listed : target ∈ info.blocks := by
      apply targets
      rw [← Instruction.map_fst_branches edge.source]
      exact List.mem_map.mpr ⟨_, branches, rfl⟩
    refine ⟨List.mem_flatMap.mpr ⟨block, block_listed, source_mem⟩, List.mem_flatMap.mpr
      ⟨body, List.mem_filterMap.mpr ⟨target, target_listed, target_found⟩, target_mem⟩, ?_⟩
    cases label : edge.label with
    | onCase condition value =>
      rw [label] at branches
      have referred := Instruction.case_mem_operands branches
      have named := sound.isSome_operandName?
        (sound.closed edge.source _ (content?_of_instruction? found) value referred)
      rw [FlowKind.text?, Option.isSome_map, named]
    | _ => rfl

/-- No end of an edge is missing. -/
theorem exists_ofBlocks :
    ∃ graph, FlowGraph.ofBlocks module (info.blocks.filterMap module.block?) = .ok graph := by
  refine ⟨_, Graph.build_eq_ok_iff.mpr ⟨fun edge edge_listed => ?_, rfl⟩⟩
  obtain ⟨source_mem, target_mem, _⟩ := sound.flow_edge inside edge_listed
  rw [List.map_map]
  exact ⟨by simpa [Function.comp_def] using source_mem,
    by simpa [Function.comp_def] using target_mem⟩

end

variable {function : ValueId} {flow : FlowGraph}

theorem function_lt (listed : function ∈ module.functions) : function < module.values.length := by
  obtain ⟨info, found, _⟩ := sound.functions function listed
  exact lt_of_content? (content?_of_function? found)

/-! ### Control flow -/

/-- A function of the module has a control flow graph, or no instruction to start with. -/
theorem ofFunction_outcome (listed : function ∈ module.functions) :
    FlowGraph.ofFunction module function = .error (.declaration function) ∨
      ∃ flow, FlowGraph.ofFunction module function = .ok flow := by
  obtain ⟨info, found, inside⟩ := sound.functions function listed
  obtain ⟨graph, built⟩ := sound.exists_ofBlocks inside
  rw [FlowGraph.ofFunction, found]
  dsimp only
  cases (info.entryBlock?.bind module.block?).bind BlockInfo.first? with
  | none => exact Or.inl rfl
  | some entry =>
    rw [built]
    exact Or.inr ⟨_, rfl⟩

section

variable (listed : function ∈ module.functions)
  (succeeded : FlowGraph.ofFunction module function = .ok flow)
include listed succeeded

theorem exists_instruction_of_mem {id : ValueId} (member : id ∈ flow.graph) :
    ∃ instruction, module.instruction? id = some instruction := by
  rw [FlowGraph.mem_iff succeeded] at member
  obtain ⟨info, found, inside⟩ := sound.functions function listed
  simp only [instructionsOf, found, Option.map_some, Option.getD_some] at member
  obtain ⟨body, body_listed, member⟩ := List.mem_flatMap.mp member
  obtain ⟨block, block_listed, block_found⟩ := List.mem_filterMap.mp body_listed
  obtain ⟨_, block_found_too, instructions⟩ := inside block block_listed
  obtain rfl := Option.some.inj (block_found.symm.trans block_found_too)
  obtain ⟨instruction, instruction_found, _⟩ := instructions id member
  exact ⟨instruction, instruction_found⟩

theorem lt_of_mem {id : ValueId} (member : id ∈ flow.graph) : id < module.values.length := by
  obtain ⟨_, found⟩ := sound.exists_instruction_of_mem listed succeeded member
  exact lt_of_content? (content?_of_instruction? found)

private theorem isSome_graphName? : (module.graphName? flow.function).isSome = true := by
  rw [graphName?, Option.isSome_map, (FlowGraph.ofFunction_spec succeeded).2.1]
  exact sound.isSome_operandName? (sound.function_lt listed)

/-- The text of a label of a node exists. The label is the node itself. -/
theorem isSome_valueText?_of_label {id value : ValueId}
    (labelled : flow.graph.label? id = some value) :
    (module.valueText? value).isSome = true := by
  obtain ⟨rfl, _⟩ := (FlowGraph.label?_eq_some_iff succeeded).mp labelled
  exact sound.isSome_valueText?
    (sound.lt_of_mem listed succeeded (Graph.mem_iff_label?.mpr ⟨_, labelled⟩))

theorem isSome_flow_toDot? : (flow.toDot? module).isSome = true := by
  obtain ⟨info, found, inside⟩ := sound.functions function listed
  obtain ⟨_, found_too, built⟩ := FlowGraph.graph_of_ofFunction succeeded
  obtain rfl := Option.some.inj (found.symm.trans found_too)
  rw [FlowGraph.toDot?]
  apply isSome_bind (sound.isSome_graphName? listed succeeded)
  intro name
  apply isSome_bind
  · apply isSome_mapM
    rintro ⟨id, value⟩ member
    exact isSome_bind
      (sound.isSome_valueText?_of_label listed succeeded (Graph.mem_nodes.mp member)) fun _ => rfl
  intro nodes
  apply isSome_bind
  · apply isSome_mapM
    intro edge member
    obtain ⟨_, _, written⟩ := sound.flow_edge inside (Graph.mem_of_mem_edges_build built member)
    exact isSome_bind written fun _ => rfl
  exact fun _ => rfl

theorem isSome_dependence_toDot? {dependence : DependenceGraph}
    (same_function : dependence.function = function)
    (same_labels : ∀ id, dependence.graph.label? id = flow.graph.label? id) :
    (dependence.toDot? module).isSome = true := by
  obtain ⟨info, found, inside⟩ := sound.functions function listed
  have named := sound.isSome_graphName? listed succeeded
  rw [(FlowGraph.ofFunction_spec succeeded).2.1] at named
  rw [DependenceGraph.toDot?, same_function]
  apply isSome_bind named
  intro name
  apply isSome_bind
  · simp only [found, Option.map_some, Option.getD_some]
    apply isSome_mapM
    intro block block_listed
    rw [DependenceGraph.cluster?]
    split
    · rfl
    · obtain ⟨_, block_found, _⟩ := inside block block_listed
      have block_lt := lt_of_content? (content?_of_block? block_found)
      apply isSome_bind (sound.isSome_operandName? block_lt)
      intro block_name
      apply isSome_bind
      · -- The members of the cluster are labels of nodes, like those of the control flow graph.
        apply isSome_mapM
        intro value member
        obtain ⟨⟨id, _⟩, node, rfl⟩ := List.mem_map.mp (List.mem_filter.mp member).1
        have labelled := Graph.mem_nodes.mp node
        rw [same_labels] at labelled
        exact isSome_bind (sound.isSome_valueText?_of_label listed succeeded labelled) fun _ => rfl
      · exact fun _ => rfl
  · exact fun _ => rfl

end

end Module.Sound

end FlowIR
