import FlowIR.Proofs.ControlFlow.Graphs
import FlowIR.Proofs.Graph.Listing
import FlowIR.Proofs.Link.Ownership

/-!
# The edges of control flow graphs

Where control goes can be said place by place: from each place of a block to the next one, and from
the last one to the beginnings of the targets of the instruction there, with a kind for each place
in the list of targets. The control flow graph of a function of a linked module has exactly these
edges. There is no graph only if there is no instruction to start with.
-/
namespace FlowIR

/-! ### Places -/

/-- Why control goes to the target at this place of the list of targets. -/
def Instruction.targetKind? (id : ValueId) : Instruction → Nat → Option FlowKind
  | br _, 0 => some .unconditional
  | condBr condition _ _, 0 => some (.onTrue condition)
  | condBr condition _ _, 1 => some (.onFalse condition)
  | switch value _ _, 0 => some (.otherwise value)
  | switch value _ cases, place + 1 => cases[place]?.map fun case => .onCase value case.1
  | indirectBr address _, _ => some (.indirect address)
  | invoke _ _ _, 0 => some (.normal id)
  | invoke _ _ _, 1 => some (.unwind id)
  | _, _ => none

namespace Module

def instructionsIn (module : Module) (block : ValueId) : List ValueId :=
  ((module.block? block).map BlockInfo.instructions).getD []

/-- The edges from each place to the next one. -/
def steps (instructions : List ValueId) : List (Graph.Edge FlowKind) :=
  (List.range (instructions.length - 1)).filterMap fun place => do
    return { source := ← instructions[place]?, target := ← instructions[place + 1]?,
             label := .fallthrough }

/-- The edges to the beginnings of the targets of an instruction. An empty target has no
beginning. -/
def jumps (module : Module) (source : ValueId) (instruction : Instruction) :
    List (Graph.Edge FlowKind) :=
  (List.range instruction.successorBlocks.length).filterMap fun place => do
    let target ← instruction.successorBlocks[place]?
    return { source, target := ← (module.instructionsIn target).head?,
             label := ← instruction.targetKind? source place }

/-- The edges that leave a block or stay in it. -/
def edgesFrom (module : Module) (block : ValueId) : List (Graph.Edge FlowKind) :=
  let instructions := module.instructionsIn block
  let jumps? := do
    let last ← instructions.getLast?
    return module.jumps last (← module.instruction? last)
  steps instructions ++ jumps?.getD []

end Module

/-! ### The edges of the graph, place by place -/

private theorem filterMap_eq_filterMap_range {α β : Type} (items : List α) (f : α → Option β) :
    items.filterMap f = (List.range items.length).filterMap fun place => items[place]?.bind f := by
  induction items with
  | nil => rfl
  | cons first rest ih =>
    rw [List.length_cons, List.range_succ_eq_map, List.filterMap_cons, List.filterMap_cons,
      List.filterMap_map, ih]
    rfl

private theorem flatMap_filterMap {α β γ : Type} (items : List α) (f : α → Option β)
    (g : β → List γ) :
    (items.filterMap f).flatMap g = items.flatMap fun item => ((f item).map g).getD [] := by
  induction items with
  | nil => rfl
  | cons first rest ih => cases found : f first <;> simp [found, ih]

namespace Instruction

variable (id : ValueId) (instruction : Instruction)

private theorem getElem?_branches (place : Nat) : (instruction.branches id)[place]? = do
    return (← instruction.successorBlocks[place]?, ← instruction.targetKind? id place) := by
  cases instruction with
  | br target => cases place <;> rfl
  | condBr condition thenBlock elseBlock => rcases place with _ | _ | _ <;> rfl
  | switch value defaultBlock cases =>
    cases place with
    | zero => rfl
    | succ place =>
      -- The default block comes before the cases.
      cases found : cases[place]? <;> simp [branches, successorBlocks, targetKind?, found]
  | indirectBr address targets =>
    cases found : targets[place]? <;> simp [branches, successorBlocks, targetKind?, found]
  | invoke site normalBlock unwindBlock => rcases place with _ | _ | _ <;> rfl
  | _ => rfl

end Instruction

private theorem Module.bind_first?_eq (module : Module) (block : ValueId) :
    (module.block? block).bind BlockInfo.first? = (module.instructionsIn block).head? := by
  cases found : module.block? block <;> simp [instructionsIn, BlockInfo.first?, found]

namespace FlowGraph

variable (module : Module)

private theorem fallthroughEdges_eq (body : BlockInfo) :
    fallthroughEdges body = Module.steps body.instructions := by
  have length : (body.instructions.zip body.instructions.tail).length =
      body.instructions.length - 1 := by
    simp
  rw [fallthroughEdges, ← List.filterMap_eq_map, filterMap_eq_filterMap_range, length, Module.steps]
  refine List.filterMap_congr fun place _ => ?_
  cases here : body.instructions[place]? <;> cases next : body.instructions[place + 1]? <;>
    simp [List.zip, List.getElem?_zipWith, here, next]

theorem branchEdges_of_last {body : BlockInfo} {last : ValueId} {instruction : Instruction}
    (ends : body.instructions.getLast? = some last)
    (found : module.instruction? last = some instruction) :
    branchEdges module body = (instruction.branches last).filterMap fun branch =>
      (module.instructionsIn branch.1).head?.map
        ({ source := last, target := ·, label := branch.2 }) := by
  rw [branchEdges, BlockInfo.terminator?, ends]
  simp only [found, Option.map_some, Option.getD_some]
  refine List.filterMap_congr fun branch _ => ?_
  rw [← Module.bind_first?_eq, Option.map_bind]
  cases module.block? branch.1 with
  | none => rfl
  | some target => cases begins : target.first? <;> simp [begins]

private theorem branchEdges_eq (body : BlockInfo) : branchEdges module body = (do
    let last ← body.instructions.getLast?
    return module.jumps last (← module.instruction? last) : Option _).getD [] := by
  cases ends : body.instructions.getLast? with
  | none => simp [branchEdges, BlockInfo.terminator?, ends]
  | some last =>
    cases found : module.instruction? last with
    | none => simp [branchEdges, BlockInfo.terminator?, ends, found]
    | some instruction =>
      -- There are as many branches as targets, so both lists run over the same places.
      have length : (instruction.branches last).length = instruction.successorBlocks.length := by
        rw [← Instruction.map_fst_branches last, List.length_map]
      simp only [found, Option.bind_eq_bind, Option.bind_some, Option.pure_def, Option.getD_some]
      rw [branchEdges_of_last module ends found, filterMap_eq_filterMap_range, length, Module.jumps]
      refine List.filterMap_congr fun place _ => ?_
      rw [Instruction.getElem?_branches]
      cases instruction.successorBlocks[place]? with
      | none => rfl
      | some target =>
        cases instruction.targetKind? last place <;>
          cases begins : (module.instructionsIn target).head? <;> simp [begins]

theorem edgesFrom_eq {block : ValueId} {body : BlockInfo}
    (found : module.block? block = some body) :
    module.edgesFrom block = fallthroughEdges body ++ branchEdges module body := by
  simp [Module.edgesFrom, Module.instructionsIn, found, fallthroughEdges_eq, branchEdges_eq]

/-- The edges that the graph is built from are those of the places of the blocks. -/
theorem flatMap_edges_eq (blocks : List ValueId) :
    ((blocks.filterMap module.block?).flatMap fun body => fallthroughEdges body ++
      branchEdges module body) = blocks.flatMap module.edgesFrom := by
  rw [flatMap_filterMap]
  refine List.flatMap_congr fun block _ => ?_
  cases found : module.block? block with
  | none => simp [Module.edgesFrom, Module.instructionsIn, Module.steps, found]
  | some body => rw [edgesFrom_eq module found, Option.map_some, Option.getD_some]

end FlowGraph

namespace Module

variable {module : Module} {function block other id : ValueId} {info : FunctionInfo}

theorem instructionsOf_eq (found : module.function? function = some info) :
    module.instructionsOf function = info.blocks.flatMap module.instructionsIn := by
  simp only [instructionsOf, found, Option.map_some, Option.getD_some]
  exact flatMap_filterMap info.blocks module.block? BlockInfo.instructions

private theorem first?_eq (info : FunctionInfo) :
    (info.entryBlock?.bind module.block?).bind BlockInfo.first? =
      info.blocks.head?.bind fun block => (module.instructionsIn block).head? := by
  rw [FunctionInfo.entryBlock?, Option.bind_assoc]
  simp only [bind_first?_eq]

theorem mem_instructionsIn :
    id ∈ module.instructionsIn block ↔
      ∃ body, module.block? block = some body ∧ id ∈ body.instructions := by
  cases found : module.block? block <;> simp [instructionsIn, found]

namespace Nested

variable (nested : module.Nested)
include nested

/-- An instruction of two blocks would have two owners. -/
theorem block_eq (inside : id ∈ module.instructionsIn block)
    (inside_other : id ∈ module.instructionsIn other) :
    block = other := by
  obtain ⟨body, found, member⟩ := mem_instructionsIn.mp inside
  obtain ⟨other_body, other_found, other_member⟩ := mem_instructionsIn.mp inside_other
  have owner := nested.block_of_instruction block body found id member
  rw [nested.block_of_instruction other other_body other_found id other_member] at owner
  exact (Option.some.inj owner).symm

theorem nodup_instructionsIn (block : ValueId) : (module.instructionsIn block).Nodup := by
  cases found : module.block? block with
  | none => simp [instructionsIn, found]
  | some body => simpa [instructionsIn, found] using nested.distinct_instructions block body found

/-- No instruction stands at two places of a function. -/
theorem nodup_instructions (listed : function ∈ module.functions)
    (found : module.function? function = some info) :
    (info.blocks.flatMap module.instructionsIn).Nodup := by
  refine List.nodup_flatMap.mpr ⟨fun block _ => nested.nodup_instructionsIn block, ?_⟩
  refine (nested.distinct_blocks function listed info found).imp
    fun different id inside inside_other => ?_
  exact different (nested.block_eq inside inside_other)

end Nested

end Module

/-! ### Graphs of linked modules -/

/-- The control flow graph of the function with these blocks: one node for each instruction, and the
edges of the places of the blocks, where parallel edges keep their order. -/
structure FlowGraph.IsGraphOf (flow : FlowGraph) (module : Module)
    (blocks : List ValueId) : Prop where
  nodes : flow.graph.nodes.Perm ((blocks.flatMap module.instructionsIn).map fun id => (id, id))
  edges : flow.graph.edges.Perm (blocks.flatMap module.edgesFrom)
  parallel : ∀ source target, flow.graph.edgeLabels source target =
    Graph.labelsBetween (blocks.flatMap module.edgesFrom) source target
  entry : (blocks.head?.bind fun block => (module.instructionsIn block).head?) = some flow.entry
  sorted_exits : flow.exits.Pairwise (· < ·)
  exits : ∀ id, id ∈ flow.exits ↔
    id ∈ blocks.flatMap module.instructionsIn ∧ ∀ edge ∈ flow.graph.edges, edge.source ≠ id

namespace FlowGraph

variable {module : Module} {function : ValueId} {info : FunctionInfo} {flow : FlowGraph}

theorem isGraphOf (nested : module.Nested) (listed : function ∈ module.functions)
    (found : module.function? function = some info)
    (succeeded : ofFunction module function = .ok flow) :
    flow.IsGraphOf module info.blocks := by
  have instructions := Module.instructionsOf_eq found
  obtain ⟨_, entry, graph, found_too, begins, built, same⟩ := ofFunction_eq_ok_iff.mp succeeded
  obtain rfl := Option.some.inj (found.symm.trans found_too)
  rw [ofBlocks, flatMap_edges_eq] at built
  obtain rfl : graph = flow.graph := congrArg FlowGraph.graph same
  constructor
  case nodes =>
    -- Neither list repeats anything, so it is enough that they hold the same nodes.
    have distinct := nested.nodup_instructions listed found
    have distinct_nodes := distinct.map (f := fun id => (id, id)) fun _ _ same =>
      (Prod.mk.inj same).1
    refine (List.perm_ext_iff_of_nodup flow.graph.nodup_nodes distinct_nodes).mpr ?_
    rintro ⟨id, label⟩
    rw [Graph.mem_nodes, label?_eq_some_iff succeeded, instructions, List.mem_map]
    constructor
    · rintro ⟨same, inside⟩
      exact ⟨id, inside, Prod.ext rfl same.symm⟩
    · rintro ⟨_, inside, same⟩
      cases same
      exact ⟨rfl, inside⟩
  case edges => exact Graph.edges_perm_of_build built
  case parallel => exact Graph.edgeLabels_of_build built
  case entry => rw [← Module.first?_eq, begins, ← same]
  case sorted_exits =>
    rw [(ofFunction_spec succeeded).2.2.2]
    exact flow.graph.pairwise_lt_ids.filter _
  case exits =>
    intro id
    rw [mem_exits_iff succeeded, Graph.IsExit, mem_iff succeeded, instructions]
    refine and_congr_right fun _ => ⟨fun none_leaves edge member leaves => ?_,
      fun none_leaves next leads => ?_⟩
    · exact none_leaves edge.target (Graph.hasEdge_iff_mem_edges.mpr ⟨edge, member, leaves, rfl⟩)
    · obtain ⟨edge, member, leaves, _⟩ := Graph.hasEdge_iff_mem_edges.mp leads
      exact none_leaves edge member leaves

end FlowGraph

namespace Table

variable {table : Table} {module : Module} {function : ValueId}

/-- A function of a linked module has a control flow graph if and only if its first block has an
instruction. The nodes, the edges, the entry and the exits of the graph are then those of its
blocks. -/
theorem flowGraph_of_link (linked : table.link = .ok module)
    (listed : function ∈ module.functions) :
    ∃ info, module.function? function = some info ∧
      ((∃ flow, FlowGraph.ofFunction module function = .ok flow) ↔
        ∃ block, info.blocks.head? = some block ∧ module.instructionsIn block ≠ []) ∧
      ∀ flow, FlowGraph.ofFunction module function = .ok flow →
        flow.IsGraphOf module info.blocks := by
  have sound := sound_of_link linked
  obtain ⟨info, found, inside⟩ := sound.functions function listed
  refine ⟨info, found, ⟨?_, ?_⟩,
    fun flow => FlowGraph.isGraphOf (nested_of_link linked) listed found⟩
  · rintro ⟨flow, succeeded⟩
    have begins := (FlowGraph.isGraphOf (nested_of_link linked) listed found succeeded).entry
    obtain ⟨block, first, begins⟩ := Option.bind_eq_some_iff.mp begins
    exact ⟨block, first, List.ne_nil_of_mem (List.mem_of_head? begins)⟩
  · rintro ⟨block, first, filled⟩
    -- Control stays inside of the function, so nothing can be missing but the first instruction.
    obtain ⟨graph, built⟩ := sound.exists_ofBlocks inside
    obtain ⟨entry, begins⟩ := Option.isSome_iff_exists.mp (List.isSome_head?.mpr filled)
    refine ⟨_, FlowGraph.ofFunction_eq_ok_iff.mpr ⟨info, entry, graph, found, ?_, built, rfl⟩⟩
    rw [Module.first?_eq, first, Option.bind_some, begins]

/-- Two cases of a switch go to the same block, which does not go on. One of the targets of an
invoke is empty. The second function is a declaration. -/
def dispatching : Table :=
  { types := [{ key := 1, ty := .integer 32 }]
    values :=
      [{ key := 20, tag := .constant .int, ty := 1, payload := .constant { intValue := some 7 } },
       { key := 21, tag := .constant .int, ty := 1, payload := .constant { intValue := some 8 } },
       { key := 30, tag := .function, ty := 1,
         payload := .function { blocks := [40, 41, 42, 43] } },
       { key := 31, tag := .function, ty := 1, payload := .function {} },
       { key := 40, tag := .basicBlock, ty := 1, payload := .block { instructions := [50, 51] } },
       { key := 41, tag := .basicBlock, ty := 1, payload := .block { instructions := [52] } },
       { key := 42, tag := .basicBlock, ty := 1, payload := .block {} },
       { key := 43, tag := .basicBlock, ty := 1, payload := .block { instructions := [53] } },
       { key := 50, tag := .instruction .alloca, ty := 1 },
       { key := 51, tag := .instruction .switch, ty := 1,
         payload := .instruction { operands := [20, 41, 20, 43, 21, 43] } },
       { key := 52, tag := .instruction .invoke, ty := 1,
         payload := .instruction { operands := [31, 40, 42] } },
       { key := 53, tag := .instruction .alloca, ty := 1 }]
    functions := [30, 31] }

/-- The cases keep their order, and control goes nowhere from the empty block. -/
theorem dispatching_flowGraph :
    ∃ module flow, dispatching.link = .ok module ∧ module.functions = [0, 1] ∧
    FlowGraph.ofFunction module 0 = .ok flow ∧ flow.exits = [9] ∧
    flow.IsGraphOf module [2, 5, 7, 8] ∧
    [2, 5, 7, 8].flatMap module.edgesFrom =
      [⟨3, 4, .fallthrough⟩, ⟨4, 6, .otherwise 10⟩, ⟨4, 9, .onCase 10 10⟩, ⟨4, 9, .onCase 10 11⟩,
       ⟨6, 3, .normal 6⟩] ∧
    flow.graph.edgeLabels 4 9 = [.onCase 10 10, .onCase 10 11] ∧
    ¬ ∃ flow, FlowGraph.ofFunction module 1 = .ok flow := by
  have run :
      (dispatching.link.toOption.bind fun module =>
      (FlowGraph.ofFunction module 0).toOption.map fun flow =>
      (module.functions, flow.exits, (module.function? 0).map FunctionInfo.blocks,
        (module.function? 1).map FunctionInfo.blocks)) =
          some ([0, 1], [9], some [2, 5, 7, 8], some []) := by
    decide +kernel
  have places :
      (dispatching.link.toOption.map fun module => [2, 5, 7, 8].flatMap module.edgesFrom) =
      some [⟨3, 4, .fallthrough⟩, ⟨4, 6, .otherwise 10⟩, ⟨4, 9, .onCase 10 10⟩,
        ⟨4, 9, .onCase 10 11⟩, ⟨6, 3, .normal 6⟩] := by
    decide +kernel
  obtain ⟨module, linked, run⟩ := exists_ok_of_toOption_bind run
  obtain ⟨flow, succeeded, run⟩ := exists_ok_of_toOption_map run
  simp only [Prod.mk.injEq] at run
  obtain ⟨functions, exits, blocks, no_blocks⟩ := run
  simp only [linked, Except.toOption, Option.map_some, Option.some.injEq] at places
  obtain ⟨info, found, _, graph⟩ := flowGraph_of_link linked (functions ▸ List.mem_cons_self)
  have is_graph := graph flow succeeded
  rw [found, Option.map_some, Option.some.injEq] at blocks
  rw [blocks] at is_graph
  obtain ⟨other, other_found, iff_begins, _⟩ :=
    flowGraph_of_link linked (functions ▸ List.mem_cons_of_mem 0 List.mem_cons_self)
  rw [other_found, Option.map_some, Option.some.injEq] at no_blocks
  refine ⟨module, flow, linked, functions, succeeded, exits, is_graph, places, ?_, ?_⟩
  · rw [is_graph.parallel, places]
    decide
  · rw [iff_begins, no_blocks]
    simp

end Table

end FlowIR
