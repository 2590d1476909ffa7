import FlowIR.ControlFlow.Blocks
import FlowIR.Proofs.ControlFlow.Edges

/-!
# Control flow between blocks and between instructions

The targets of the last instruction of a block, the blocks of a function that are searched for a
target, and the edges between instructions are three accounts of the same flow. In a linked module
they agree, since control stays inside of a function and no instruction belongs to two blocks.
-/
namespace FlowIR

/-- Control falls through to no branch. -/
theorem Instruction.ne_fallthrough_of_mem_branches {id target : ValueId} {label : FlowKind}
    {instruction : Instruction}
    (branch : (target, label) ∈ instruction.branches id) : label ≠ .fallthrough := by
  rintro rfl
  cases instruction <;> simp [branches] at branch

namespace Module

variable {module : Module} {function block target first : ValueId} {info : FunctionInfo}
  {body : BlockInfo}

/-! ### Targets -/

private theorem blockSuccessors_eq {last : ValueId} {instruction : Instruction}
    (found : module.block? block = some body) (ends : body.instructions.getLast? = some last)
    (last_found : module.instruction? last = some instruction) :
    module.blockSuccessors block = instruction.successorBlocks := by
  simp [blockSuccessors, BlockInfo.terminator?, found, ends, last_found]

private theorem exists_last_of_mem_blockSuccessors
    (member : target ∈ module.blockSuccessors block) :
    ∃ body last instruction, module.block? block = some body ∧
      body.instructions.getLast? = some last ∧
      module.instruction? last = some instruction ∧ target ∈ instruction.successorBlocks := by
  rw [blockSuccessors] at member
  cases found : module.block? block with
  | none => simp [found] at member
  | some body =>
    cases ends : body.instructions.getLast? with
    | none => simp [found, ends, BlockInfo.terminator?] at member
    | some last =>
      cases last_found : module.instruction? last with
      | none => simp [found, ends, last_found, BlockInfo.terminator?] at member
      | some instruction =>
        refine ⟨body, last, instruction, rfl, ends, last_found, ?_⟩
        simpa [found, ends, last_found, BlockInfo.terminator?] using member

/-- Control stays inside of a function. -/
theorem blockSuccessors_subset (inside : module.RunsWithin info.blocks block) :
    module.blockSuccessors block ⊆ info.blocks := by
  intro target member
  obtain ⟨body, last, instruction, found, ends, last_found, listed⟩ :=
    exists_last_of_mem_blockSuccessors member
  obtain ⟨_, found_too, instructions⟩ := inside
  obtain rfl := Option.some.inj (found.symm.trans found_too)
  obtain ⟨_, last_found_too, targets⟩ := instructions last (List.mem_of_getLast? ends)
  obtain rfl := Option.some.inj (last_found.symm.trans last_found_too)
  exact targets listed

namespace Nested

variable (nested : module.Nested) (listed : function ∈ module.functions)
  (found : module.function? function = some info)

section

include nested listed found

private theorem functionOf?_eq (member : block ∈ info.blocks) :
    module.functionOf? block = some function := by
  have owner := nested.function_of_block function listed info found block member
  simp [functionOf?, owner, found]

private theorem blockPredecessors_eq (member : block ∈ info.blocks) :
    module.blockPredecessors block = info.blocks.filter (block ∈ module.blockSuccessors ·) := by
  simp [blockPredecessors, nested.functionOf?_eq listed found member, found]

end

end Nested

/-! ### Edges -/

theorem source_mem_of_mem_edgesFrom {edge : Graph.Edge FlowKind}
    (member : edge ∈ module.edgesFrom block) :
    edge.source ∈ module.instructionsIn block := by
  cases found : module.block? block with
  | none => simp [edgesFrom, instructionsIn, steps, found] at member
  | some body =>
    rw [FlowGraph.edgesFrom_eq module found, List.mem_append] at member
    refine mem_instructionsIn.mpr ⟨body, found, ?_⟩
    rcases member with step | branch
    · exact (FlowGraph.ends_of_mem_fallthroughEdges step).1
    · exact (FlowGraph.exists_branch_of_mem_branchEdges branch).1

private theorem countP_steps (last first : ValueId) :
    (Graph.labelsBetween (FlowGraph.fallthroughEdges body) last first).countP (· ≠ .fallthrough) =
      0 := by
  rw [Graph.countP_labelsBetween, List.countP_eq_zero]
  intro edge listed
  simp [(FlowGraph.ends_of_mem_fallthroughEdges listed).2.2]

namespace Nested

variable (nested : module.Nested)
include nested

/-- The edges at an instruction come from its own block. -/
theorem labelsBetween_edges {blocks : List ValueId} (distinct : blocks.Nodup)
    (member : block ∈ blocks) {source : ValueId} (inside : source ∈ module.instructionsIn block)
    (next : ValueId) :
    Graph.labelsBetween (blocks.flatMap module.edgesFrom) source next =
      Graph.labelsBetween (module.edgesFrom block) source next := by
  rw [Graph.labelsBetween_flatMap]
  refine Graph.flatMap_eq_of_nodup distinct member fun other _ different => ?_
  -- An edge of another block leaves an instruction of that block, and no instruction is in both.
  refine Graph.labelsBetween_eq_nil fun edge listed ends => different ?_
  have here := source_mem_of_mem_edgesFrom listed
  rw [ends.1] at here
  exact nested.block_eq here inside

/-- One branch for each time that the block is among the targets. -/
theorem countP_branches {last : ValueId} {instruction : Instruction}
    (ends : body.instructions.getLast? = some last)
    (found : module.instruction? last = some instruction)
    (begins : (module.instructionsIn target).head? = some first) :
    (Graph.labelsBetween (FlowGraph.branchEdges module body) last first).countP (· ≠ .fallthrough) =
      instruction.successorBlocks.count target := by
  rw [Graph.countP_labelsBetween, FlowGraph.branchEdges_of_last module ends found,
    List.countP_filterMap, ← Instruction.map_fst_branches last, List.count, List.countP_map]
  refine List.countP_congr fun branch listed => ?_
  have labelled := Instruction.ne_fallthrough_of_mem_branches listed
  -- No other block begins with the same instruction.
  have same_block : (module.instructionsIn branch.1).head? = some first ↔ branch.1 = target := by
    refine ⟨fun also => ?_, fun same => same ▸ begins⟩
    exact nested.block_eq (List.mem_of_head? also) (List.mem_of_head? begins)
  rw [Function.comp_apply, beq_iff_eq, ← same_block]
  cases (module.instructionsIn branch.1).head? <;> simp [labelled]

/-- The branches from the end of one block to the beginning of another are its occurrences among the
targets. -/
theorem countP_edgeLabels (sound : module.Sound) (listed : function ∈ module.functions)
    (function_found : module.function? function = some info) (member : block ∈ info.blocks)
    {flow : FlowGraph} (succeeded : FlowGraph.ofFunction module function = .ok flow)
    {last : ValueId} (found : module.block? block = some body)
    (ends : body.instructions.getLast? = some last)
    (begins : (module.instructionsIn target).head? = some first) :
    (flow.graph.edgeLabels last first).countP (· ≠ .fallthrough) =
      (module.blockSuccessors block).count target := by
  have is_graph := FlowGraph.isGraphOf nested listed function_found succeeded
  have distinct := nested.distinct_blocks function listed info function_found
  have last_mem : last ∈ body.instructions := List.mem_of_getLast? ends
  obtain ⟨_, function_found_too, inside⟩ := sound.functions function listed
  obtain rfl := Option.some.inj (function_found.symm.trans function_found_too)
  obtain ⟨_, found_too, instructions⟩ := inside block member
  obtain rfl := Option.some.inj (found.symm.trans found_too)
  obtain ⟨instruction, last_found, _⟩ := instructions last last_mem
  -- What falls through is not counted, and the rest are the branches of the last instruction.
  rw [is_graph.parallel,
    nested.labelsBetween_edges distinct member (mem_instructionsIn.mpr ⟨body, found, last_mem⟩),
    FlowGraph.edgesFrom_eq module found, Graph.labelsBetween_append, List.countP_append,
    countP_steps, nested.countP_branches ends last_found begins,
    blockSuccessors_eq found ends last_found, Nat.zero_add]

end Nested

end Module

namespace Table

variable {table : Table} {module : Module} {before after : ValueId} {body next : BlockInfo}

/-- Successors and predecessors of blocks agree, and lie in one function. If the function has a
control flow graph, then it has as many branches from the end of one block to the beginning of
another as the one has among its targets. -/
theorem blockFlow_of_link (linked : table.link = .ok module)
    (found : module.block? before = some body) (next_found : module.block? after = some next) :
    (after ∈ module.blockSuccessors before ↔ before ∈ module.blockPredecessors after) ∧
      (after ∈ module.blockSuccessors before → ∃ function ∈ module.functions, ∃ info,
        module.function? function = some info ∧ before ∈ info.blocks ∧ after ∈ info.blocks ∧
        module.functionOf? before = some function ∧ module.functionOf? after = some function) ∧
      ∀ function flow last first, module.functionOf? before = some function →
        FlowGraph.ofFunction module function = .ok flow →
        body.instructions.getLast? = some last → next.instructions.head? = some first →
        (flow.graph.edgeLabels last first).countP (· ≠ .fallthrough) =
          (module.blockSuccessors before).count after := by
  have sound := sound_of_link linked
  have nested := nested_of_link linked
  -- The block is in one function, and so are its targets.
  obtain ⟨function, listed, info, function_found, member⟩ :=
    nested.no_block_outside before body found
  have owner := nested.functionOf?_eq listed function_found member
  have within : ∀ target ∈ module.blockSuccessors before, target ∈ info.blocks := by
    obtain ⟨_, function_found_too, inside⟩ := sound.functions function listed
    obtain rfl := Option.some.inj (function_found.symm.trans function_found_too)
    exact Module.blockSuccessors_subset (inside before member)
  refine ⟨⟨fun successor => ?_, fun predecessor => ?_⟩, fun successor => ?_, ?_⟩
  · rw [nested.blockPredecessors_eq listed function_found (within after successor), List.mem_filter]
    exact ⟨member, by simpa using successor⟩
  · rw [Module.blockPredecessors, List.mem_filter] at predecessor
    simpa using predecessor.2
  · exact ⟨function, listed, info, function_found, member, within after successor, owner,
      nested.functionOf?_eq listed function_found (within after successor)⟩
  · intro other flow last first same_function succeeded ends begins
    obtain rfl := Option.some.inj (owner.symm.trans same_function)
    refine nested.countP_edgeLabels sound listed function_found member succeeded found ends ?_
    rw [Module.instructionsIn, next_found, Option.map_some, Option.getD_some, begins]

/-- A switch is alone in its block and goes back to it twice, and once to a block from which control
comes back. A block of another function goes to itself. -/
def looping : Table :=
  { types := [{ key := 1, ty := .integer 32 }]
    values :=
      [{ key := 20, tag := .constant .int, ty := 1, payload := .constant { intValue := some 7 } },
       { key := 21, tag := .constant .int, ty := 1, payload := .constant { intValue := some 8 } },
       { key := 30, tag := .function, ty := 1, payload := .function { blocks := [40, 41] } },
       { key := 31, tag := .function, ty := 1, payload := .function { blocks := [42] } },
       { key := 40, tag := .basicBlock, ty := 1, payload := .block { instructions := [50] } },
       { key := 41, tag := .basicBlock, ty := 1, payload := .block { instructions := [51] } },
       { key := 42, tag := .basicBlock, ty := 1, payload := .block { instructions := [52] } },
       { key := 50, tag := .instruction .switch, ty := 1,
         payload := .instruction { operands := [20, 40, 20, 41, 21, 40] } },
       { key := 51, tag := .instruction .br, ty := 1,
         payload := .instruction { operands := [40] } },
       { key := 52, tag := .instruction .br, ty := 1,
         payload := .instruction { operands := [42] } }]
    functions := [30, 31] }

/-- Both ways back to the block are counted, although they join an instruction with itself. -/
theorem looping_blockFlow :
    ∃ module flow, looping.link = .ok module ∧ module.block? 2 = some { instructions := [3] } ∧
    module.functionOf? 2 = some 0 ∧ FlowGraph.ofFunction module 0 = .ok flow ∧
    module.blockSuccessors 2 = [2, 4, 2] ∧ 2 ∈ module.blockPredecessors 2 ∧
    (flow.graph.edgeLabels 3 3).countP (· ≠ .fallthrough) = 2 := by
  have run :
      (looping.link.toOption.bind fun module =>
        (FlowGraph.ofFunction module 0).toOption.map fun _ =>
          (module.block? 2, module.functionOf? 2, module.blockSuccessors 2)) =
      some (some { instructions := [3] }, some 0, [2, 4, 2]) := by
    decide +kernel
  obtain ⟨module, linked, run⟩ := exists_ok_of_toOption_bind run
  obtain ⟨flow, succeeded, run⟩ := exists_ok_of_toOption_map run
  simp only [Prod.mk.injEq] at run
  obtain ⟨found, owner, successors⟩ := run
  obtain ⟨agree, _, count⟩ := blockFlow_of_link linked found found
  refine ⟨module, flow, linked, found, owner, succeeded, successors,
    agree.mp (by simp [successors]), ?_⟩
  rw [count 0 flow 3 3 owner succeeded rfl rfl, successors]
  rfl

end Table

end FlowIR
