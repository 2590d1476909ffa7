import FlowIR.Proofs.ControlFlow.Blocks
import FlowIR.Proofs.Dominance.Unconditional

/-!
# Which instructions decide

An instruction can only decide about others if control may go on from it in two ways. In a linked
module this takes the last instruction of a block, and one that has several targets: from every
other instruction control goes to the next one in its block. So nothing depends on anything in a
function where each block goes to at most one place.

What an instruction depends on over any number of steps is found by a traversal of the direct
dependencies. These may lead back to the instruction itself, which is left out.
-/
namespace FlowIR

/-- The instructions that choose between targets. -/
def Instruction.choosesTarget : Instruction → Bool
  | condBr _ _ _ | switch _ _ _ | indirectBr _ _ | invoke _ _ _ => true
  | _ => false

/-- An instruction with two different targets has to choose. -/
theorem Instruction.choosesTarget_of_ne {instruction : Instruction} {left right : ValueId}
    (left_mem : left ∈ instruction.successorBlocks)
    (right_mem : right ∈ instruction.successorBlocks) (different : left ≠ right) :
    instruction.choosesTarget = true := by
  cases instruction with
  | br target =>
    simp only [successorBlocks, List.mem_singleton] at left_mem right_mem
    exact absurd (left_mem.trans right_mem.symm) different
  | condBr | switch | indirectBr | invoke => rfl
  | _ => simp [successorBlocks] at left_mem

/-- A node on which another one depends has two different successors: after its only successor,
nothing would be left to decide. -/
theorem Graph.DependsOn.exists_two_successors {N E : Type} {graph : Graph N E} {x controller : Nat}
    (depends : graph.DependsOn x controller) :
    ∃ left right, left ≠ right ∧ graph.HasEdge controller left ∧
      graph.HasEdge controller right := by
  obtain ⟨next, edge, _, through, missed⟩ := depends
  by_contra one_only
  have only : ∀ other, graph.HasEdge controller other → other = next := by
    intro other other_edge
    by_contra different
    exact one_only ⟨other, next, different, other_edge, edge⟩
  apply missed
  intro exit path is_exit walk
  cases walk with
  | single _ =>
    -- The controller goes on, so it is not an exit itself.
    exact absurd edge (is_exit.2 next)
  | cons first rest =>
    obtain rfl := only _ first
    exact List.mem_cons_of_mem _ (through exit _ is_exit rest)

namespace Module

variable {module : Module} {block source : ValueId}

/-! ### Leaving an instruction -/

/-- Control goes from one place of the list to the next one. -/
def StepsTo (instructions : List ValueId) (source target : ValueId) : Prop :=
  ∃ place, instructions[place]? = some source ∧ instructions[place + 1]? = some target

/-- Control goes from the last instruction of a block to the beginning of a target. -/
def JumpsTo (module : Module) (block source target : ValueId) : Prop :=
  (module.instructionsIn block).getLast? = some source ∧
    ∃ instruction, module.instruction? source = some instruction ∧
    ∃ next ∈ instruction.successorBlocks, (module.instructionsIn next).head? = some target

private theorem stepsTo_of_mem_steps {instructions : List ValueId} {edge : Graph.Edge FlowKind}
    (member : edge ∈ steps instructions) : StepsTo instructions edge.source edge.target := by
  obtain ⟨place, _, made⟩ := List.mem_filterMap.mp member
  simp only [Option.bind_eq_bind, Option.pure_def, Option.bind_eq_some_iff,
    Option.some.injEq] at made
  obtain ⟨source, here, target, next, rfl⟩ := made
  exact ⟨place, here, next⟩

private theorem steps_or_jumps_of_mem_edgesFrom {edge : Graph.Edge FlowKind}
    (member : edge ∈ module.edgesFrom block) :
    StepsTo (module.instructionsIn block) edge.source edge.target ∨
      module.JumpsTo block edge.source edge.target := by
  rcases List.mem_append.mp member with step | jump
  · exact Or.inl (stepsTo_of_mem_steps step)
  · right
    cases ends : (module.instructionsIn block).getLast? with
    | none => simp [ends] at jump
    | some last =>
      cases found : module.instruction? last with
      | none => simp [ends, found] at jump
      | some instruction =>
        simp only [ends, found, Option.bind_eq_bind, Option.bind_some, Option.pure_def,
          Option.getD_some] at jump
        obtain ⟨place, _, made⟩ := List.mem_filterMap.mp jump
        simp only [Option.bind_eq_bind, Option.pure_def, Option.bind_eq_some_iff,
          Option.some.injEq] at made
        obtain ⟨next, listed, first, begins, label, _, rfl⟩ := made
        exact ⟨ends, instruction, found, next, List.mem_of_getElem? listed, begins⟩

/-- In a list without repetition a place has one successor, and the last place has none. -/
theorem StepsTo.eq_of_nodup {instructions : List ValueId} {left right : ValueId}
    (distinct : instructions.Nodup) (to_left : StepsTo instructions source left)
    (to_right : StepsTo instructions source right) : left = right := by
  obtain ⟨place, here, next⟩ := to_left
  obtain ⟨other, here_too, next_too⟩ := to_right
  have same_place : place = other :=
    (List.getElem?_inj (List.getElem?_eq_some_iff.mp here).1 distinct).mp (here.trans here_too.symm)
  subst same_place
  exact Option.some.inj (next.symm.trans next_too)

private theorem StepsTo.not_last {instructions : List ValueId} {target : ValueId}
    (distinct : instructions.Nodup) (steps : StepsTo instructions source target) :
    instructions.getLast? ≠ some source := by
  obtain ⟨place, here, next⟩ := steps
  intro ends
  rw [List.getLast?_eq_getElem?] at ends
  have same_place : place = instructions.length - 1 :=
    (List.getElem?_inj (List.getElem?_eq_some_iff.mp here).1 distinct).mp (here.trans ends.symm)
  have bound := (List.getElem?_eq_some_iff.mp next).1
  omega

/-- If control may go on from an instruction in two ways, then it stands last in its block and
chooses between targets. -/
theorem Nested.last_of_two_ways (nested : module.Nested) {left right : Graph.Edge FlowKind}
    (left_mem : left ∈ module.edgesFrom block) (right_mem : right ∈ module.edgesFrom block)
    (same_source : left.source = right.source) (different : left.target ≠ right.target) :
    (module.instructionsIn block).getLast? = some left.source ∧
      ∃ instruction, module.instruction? left.source = some instruction ∧
        instruction.choosesTarget = true := by
  have distinct := nested.nodup_instructionsIn block
  rcases steps_or_jumps_of_mem_edgesFrom left_mem
    with left_steps | ⟨ends, instruction, found, next, listed, begins⟩
  · rcases steps_or_jumps_of_mem_edgesFrom right_mem with right_steps | ⟨ends, _⟩
    · exact absurd (left_steps.eq_of_nodup distinct (same_source ▸ right_steps)) different
    · exact absurd (same_source ▸ ends) (left_steps.not_last distinct)
  · rcases steps_or_jumps_of_mem_edgesFrom right_mem
      with right_steps | ⟨_, _, found_too, other, listed_too, begins_too⟩
    · exact absurd (same_source ▸ ends) (right_steps.not_last distinct)
    · rw [← same_source, found] at found_too
      obtain rfl := Option.some.inj found_too
      -- Blocks that begin differently are different blocks.
      have other_block : next ≠ other := by
        rintro rfl
        exact different (Option.some.inj (begins.symm.trans begins_too))
      exact ⟨ends, instruction, found,
        Instruction.choosesTarget_of_ne listed listed_too other_block⟩

end Module

/-! ### Controllers -/

/-- The instruction stands last in the block, and chooses between targets that begin with different
instructions. -/
structure FlowGraph.DecidesAt (flow : FlowGraph) (module : Module) (block id : ValueId) : Prop where
  owner : module.blockOf? id = some block
  last : (module.block? block).bind BlockInfo.terminator? = some id
  chooses : ∃ instruction, module.instruction? id = some instruction ∧
    instruction.choosesTarget = true
  two_targets : ∃ left ∈ flow.graph.succIds id, ∃ right ∈ flow.graph.succIds id, left ≠ right

private theorem FlowGraph.IsGraphOf.exists_edge {flow : FlowGraph} {module : Module}
    {blocks : List ValueId} {source target : ValueId} (is_graph : flow.IsGraphOf module blocks)
    (leads : flow.graph.HasEdge source target) :
    ∃ block ∈ blocks, ∃ edge ∈ module.edgesFrom block, edge.source = source ∧
      edge.target = target := by
  obtain ⟨edge, member, ends⟩ := Graph.hasEdge_iff_mem_edges.mp leads
  obtain ⟨block, listed, inside⟩ := List.mem_flatMap.mp (is_graph.edges.mem_iff.mp member)
  exact ⟨block, listed, edge, inside, ends⟩

private theorem Module.Nested.exists_decidesAt {module : Module} (nested : module.Nested)
    {flow : FlowGraph} {blocks : List ValueId} {x controller : ValueId}
    (coherent : flow.graph.Coherent) (is_graph : flow.IsGraphOf module blocks)
    (depends : flow.graph.DependsOn x controller) :
    ∃ block ∈ blocks, flow.DecidesAt module block controller := by
  obtain ⟨left, right, different, to_left, to_right⟩ := depends.exists_two_successors
  obtain ⟨block, listed, edge, inside, rfl, rfl⟩ := is_graph.exists_edge to_left
  obtain ⟨other, _, other_edge, other_inside, same_source, rfl⟩ := is_graph.exists_edge to_right
  -- Both edges leave the same instruction, so they come from the same block.
  have source_mem := Module.source_mem_of_mem_edgesFrom inside
  have other_mem := Module.source_mem_of_mem_edgesFrom other_inside
  rw [same_source] at other_mem
  obtain rfl := nested.block_eq source_mem other_mem
  obtain ⟨ends, instruction, found, chooses⟩ :=
    nested.last_of_two_ways inside other_inside same_source.symm different
  obtain ⟨body, body_found, member⟩ := Module.mem_instructionsIn.mp source_mem
  have owner := nested.block_of_instruction block body body_found edge.source member
  refine ⟨block, listed, ?_⟩
  constructor
  case owner => simp [Module.blockOf?, found, owner]
  case last => simpa [Module.instructionsIn, body_found, BlockInfo.terminator?] using ends
  case chooses => exact ⟨instruction, found, chooses⟩
  case two_targets =>
    exact ⟨_, coherent.mem_succIds.mpr to_left, _, coherent.mem_succIds.mpr to_right, different⟩

private theorem DependenceGraph.mem_direct_iff {dependence : DependenceGraph}
    {labels : Nat → Option ValueId} {pairs : Nat × Nat → Prop}
    (coherent : dependence.graph.Coherent) (exact_edges : dependence.graph.OneEdgeEach labels pairs)
    {id controller : ValueId} :
    controller ∈ dependence.direct id ↔ pairs (id, controller) := by
  rw [direct, coherent.mem_succIds, exact_edges.hasEdge_iff]

/-- Whatever an instruction of a linked function directly depends on is the last instruction of its
block, and chooses between targets that begin differently. So if control goes from the end of each
block to at most one instruction, then there are no dependencies. -/
theorem Table.controllers_of_link {table : Table} {module : Module} {function : ValueId}
    {flow : FlowGraph} (linked : table.link = .ok module)
    (succeeded : FlowGraph.ofFunction module function = .ok flow) :
    ∃ info dependence, module.function? function = some info ∧
      DependenceGraph.ofFlow flow = .ok dependence ∧
      (∀ id, ∀ controller ∈ dependence.direct id, ∃ block ∈ info.blocks,
        flow.DecidesAt module block controller) ∧
      ((∀ block ∈ info.blocks, ∀ last,
        (module.block? block).bind BlockInfo.terminator? = some last →
        (flow.graph.succIds last).length ≤ 1) → dependence.graph.edges = []) := by
  have nested := nested_of_link linked
  obtain ⟨info, found, _⟩ := FlowGraph.graph_of_ofFunction succeeded
  have is_graph := FlowGraph.isGraphOf nested (mem_functions_of_link linked found) found succeeded
  have flow_coherent := (FlowGraph.ofFunction_spec succeeded).1.coherent
  obtain ⟨dependence, computed, _, coherent, exact_edges⟩ := DependenceGraph.exists_ofFlow succeeded
  have decides : ∀ id, ∀ controller ∈ dependence.direct id,
      ∃ block ∈ info.blocks, flow.DecidesAt module block controller := by
    intro id controller direct
    rw [DependenceGraph.mem_direct_iff coherent exact_edges] at direct
    exact nested.exists_decidesAt flow_coherent is_graph direct
  refine ⟨info, dependence, found, computed, decides, fun one_target => ?_⟩
  rw [List.eq_nil_iff_forall_not_mem]
  intro edge member
  -- The target of an edge would have two successors.
  have leads : dependence.graph.HasEdge edge.source edge.target :=
    Graph.hasEdge_iff_mem_edges.mpr ⟨edge, member, rfl, rfl⟩
  obtain ⟨block, listed, decided⟩ :=
    decides edge.source edge.target (coherent.mem_succIds.mpr leads)
  obtain ⟨left, left_mem, right, right_mem, different⟩ := decided.two_targets
  have few := one_target block listed edge.target decided.last
  have two : 2 ≤ (flow.graph.succIds edge.target).length := by
    have inside : [left, right] ⊆ flow.graph.succIds edge.target := by simp [left_mem, right_mem]
    exact (List.subperm_of_subset (by simpa using different) inside).length_le
  omega

namespace Table

/-- Two branches of the first function lead to each other, and each may leave the function instead.
The only branch of the second function has the same target twice. -/
def alternating : Table :=
  { types := [{ key := 1, ty := .integer 1 }]
    values :=
      [{ key := 20, tag := .constant .int, ty := 1, payload := .constant { intValue := some 1 } },
       { key := 30, tag := .function, ty := 1,
         payload := .function { blocks := [40, 41, 42, 43] } },
       { key := 31, tag := .function, ty := 1, payload := .function { blocks := [44, 45] } },
       { key := 40, tag := .basicBlock, ty := 1, payload := .block { instructions := [50] } },
       { key := 41, tag := .basicBlock, ty := 1, payload := .block { instructions := [51, 52] } },
       { key := 42, tag := .basicBlock, ty := 1, payload := .block { instructions := [53] } },
       { key := 43, tag := .basicBlock, ty := 1, payload := .block { instructions := [54] } },
       { key := 44, tag := .basicBlock, ty := 1, payload := .block { instructions := [55] } },
       { key := 45, tag := .basicBlock, ty := 1, payload := .block { instructions := [56] } },
       { key := 50, tag := .instruction .br, ty := 1,
         payload := .instruction { operands := [20, 41, 42] } },
       { key := 51, tag := .instruction .alloca, ty := 1 },
       { key := 52, tag := .instruction .br, ty := 1,
         payload := .instruction { operands := [20, 40, 43] } },
       { key := 53, tag := .instruction .ret, ty := 1 },
       { key := 54, tag := .instruction .ret, ty := 1 },
       { key := 55, tag := .instruction .br, ty := 1,
         payload := .instruction { operands := [20, 45, 45] } },
       { key := 56, tag := .instruction .ret, ty := 1 }]
    functions := [30, 31] }

/-- The first branch depends on the second one, which decides at the end of its block. Nothing
depends on the branch with one target. -/
theorem alternating_controllers : ∃ module flow straight dependence, alternating.link = .ok module ∧
    FlowGraph.ofFunction module 0 = .ok flow ∧ FlowGraph.ofFunction module 1 = .ok straight ∧
    DependenceGraph.ofFlow flow = .ok dependence ∧ 6 ∈ dependence.direct 3 ∧
    (∃ block, flow.DecidesAt module block 6) ∧
    ∃ independence, DependenceGraph.ofFlow straight = .ok independence ∧
      independence.graph.edges = [] := by
  have run :
      (alternating.link.toOption.bind fun module =>
      (FlowGraph.ofFunction module 0).toOption.bind fun flow =>
      (FlowGraph.ofFunction module 1).toOption.map fun straight =>
        ((DependenceGraph.ofFlow flow).toOption.map (DependenceGraph.direct · 3),
          (module.function? 1).map fun info =>
          info.blocks.all fun block =>
              ((module.block? block).bind BlockInfo.terminator?).all fun last =>
            decide ((straight.graph.succIds last).length ≤ 1))) = some (some [6], some true) := by
    decide +kernel
  obtain ⟨module, linked, run⟩ := exists_ok_of_toOption_bind run
  obtain ⟨flow, succeeded, run⟩ := exists_ok_of_toOption_bind run
  obtain ⟨straight, also_succeeded, run⟩ := exists_ok_of_toOption_map run
  obtain ⟨info, dependence, _, computed, decides, _⟩ := controllers_of_link linked succeeded
  obtain ⟨other, independence, found, also_computed, _, one_target⟩ :=
    controllers_of_link linked also_succeeded
  simp only [computed, found, Except.toOption, Option.map_some, Option.some.injEq, Prod.mk.injEq,
    List.all_eq_true, Option.all_eq_true, decide_eq_true_eq] at run
  have direct : 6 ∈ dependence.direct 3 := by rw [run.1]; exact List.mem_singleton_self 6
  obtain ⟨block, _, decided⟩ := decides 3 6 direct
  exact ⟨module, flow, straight, dependence, linked, succeeded, also_succeeded, computed, direct,
    ⟨block, decided⟩, independence, also_computed, one_target run.2⟩

end Table

/-! ### Chains of dependencies -/

/-- A chain of direct dependencies leads from the first instruction to the second one, at least one
of them. -/
def DependenceGraph.Chain (dependence : DependenceGraph) : ValueId → ValueId → Prop :=
  Relation.TransGen fun id controller => controller ∈ dependence.direct id

/-- Every instruction of a function has a list of all others that chains of dependencies lead to
from it, each once. One instruction depends on another if it is not the same and such a chain leads
there. -/
theorem DependenceGraph.transitive_exact {module : Module} {function : ValueId} {flow : FlowGraph}
    (succeeded : FlowGraph.ofFunction module function = .ok flow) :
    ∃ dependence, ofFlow flow = .ok dependence ∧ ∀ id ∈ module.instructionsOf function,
      ∃ others, dependence.transitive id = .ok others ∧ others.Nodup ∧ id ∉ others ∧
        (∀ other, other ≠ id → (other ∈ others ↔ dependence.Chain id other)) ∧
        ∀ controller, ∃ answer, dependence.dependsOn controller id = .ok answer ∧
          (answer = true ↔ controller ≠ id ∧ dependence.Chain id controller) := by
  obtain ⟨dependence, computed, _, coherent, exact_edges⟩ := exists_ofFlow succeeded
  refine ⟨dependence, computed, fun id listed => ?_⟩
  have member : id ∈ dependence.graph := by
    rw [Graph.mem_iff_label?, exact_edges.same_labels, ← Graph.mem_iff_label?]
    exact (FlowGraph.mem_iff succeeded).mpr listed
  -- The traversal begins with the instruction itself, which is left out of the answer.
  obtain ⟨others, begins⟩ := Graph.preorder_eq_cons member
  obtain ⟨fresh, distinct⟩ := Graph.nodup_of_preorder_eq_cons begins
  have closure : ∀ other, other ≠ id → (other ∈ others ↔ dependence.Chain id other) := by
    intro other different
    have same_steps : (fun id controller => controller ∈ dependence.direct id) =
        dependence.graph.HasEdge :=
      funext₂ fun _ _ => propext coherent.mem_succIds
    rw [Graph.mem_of_preorder_eq_cons begins coherent member different, Chain, same_steps]
  have found : dependence.transitive id = .ok others := by
    rw [transitive, begins]
    exact if_pos rfl
  refine ⟨others, found, distinct, fresh, closure,
    fun controller => ⟨decide (controller ∈ others), ?_, ?_⟩⟩
  · rw [dependsOn, found]
    rfl
  · rw [decide_eq_true_eq]
    by_cases same : controller = id
    · subst same
      simpa using fresh
    · simpa [same] using closure controller same

/-- Chains lead from the first branch of the function to itself, but only the second one is
listed. -/
theorem Table.alternating_transitive : ∃ module flow dependence, alternating.link = .ok module ∧
    FlowGraph.ofFunction module 0 = .ok flow ∧ DependenceGraph.ofFlow flow = .ok dependence ∧
    dependence.transitive 3 = .ok [6] ∧ dependence.Chain 3 6 ∧ dependence.Chain 3 3 ∧
    dependence.dependsOn 6 3 = .ok true ∧ dependence.dependsOn 3 3 = .ok false := by
  have run :
      (alternating.link.toOption.bind fun module =>
      (FlowGraph.ofFunction module 0).toOption.bind fun flow =>
      (DependenceGraph.ofFlow flow).toOption.map fun dependence =>
        (module.instructionsOf 0, (dependence.transitive 3).toOption, dependence.direct 6)) =
      some ([3, 5, 6, 8, 10], some [6], [3]) := by
    decide +kernel
  obtain ⟨module, linked, run⟩ := exists_ok_of_toOption_bind run
  obtain ⟨flow, succeeded, run⟩ := exists_ok_of_toOption_bind run
  obtain ⟨dependence, computed, run⟩ := exists_ok_of_toOption_map run
  simp only [Prod.mk.injEq, toOption_eq_some_iff] at run
  obtain ⟨instructions, listed, direct⟩ := run
  obtain ⟨same, also_computed, all⟩ := DependenceGraph.transitive_exact succeeded
  obtain rfl := Except.ok.inj (computed.symm.trans also_computed)
  obtain ⟨others, found, _, fresh, closure, answers⟩ := all 3 (by rw [instructions]; decide)
  obtain rfl := Except.ok.inj (listed.symm.trans found)
  have chain : dependence.Chain 3 6 := (closure 6 (by decide)).mp (by decide)
  have back : 3 ∈ dependence.direct 6 := by rw [direct]; exact List.mem_singleton_self 3
  obtain ⟨answer, answered, is_true⟩ := answers 6
  obtain ⟨refusal, refused, is_false⟩ := answers 3
  have answer_eq : answer = true := is_true.mpr ⟨by decide, chain⟩
  have refusal_eq : refusal = false := by simpa using is_false
  exact ⟨module, flow, dependence, linked, succeeded, computed, found, chain, chain.tail back,
    answer_eq ▸ answered, refusal_eq ▸ refused⟩

end FlowIR
