import FlowIR.Proofs.Dominance.ControlDependence
import FlowIR.Proofs.Escape.Contributions

/-!
# Summaries of functions

The summary of a function is made of the contributions of exactly those instructions from which an
exit can be reached, whatever the branches and the loops of the function are.
-/
namespace FlowIR

/-- The instructions of the blocks of a function, one block after the other. -/
def Module.instructionsOf (module : Module) (function : ValueId) : List ValueId :=
  let blocks := ((module.function? function).map FunctionInfo.blocks).getD []
  (blocks.filterMap module.block?).flatMap BlockInfo.instructions

/-! ### The nodes of a control flow graph -/

namespace FlowGraph

variable {module : Module} {function : ValueId} {flow : FlowGraph}

theorem graph_of_ofFunction (succeeded : ofFunction module function = .ok flow) :
    ∃ info, module.function? function = some info ∧
      ofBlocks module (info.blocks.filterMap module.block?) = .ok flow.graph := by
  obtain ⟨info, _, graph, found, _, built, rfl⟩ := ofFunction_eq_ok_iff.mp succeeded
  exact ⟨info, found, built⟩

/-- The nodes are the instructions of the function, and each is labelled by itself. -/
theorem label?_eq_some_iff (succeeded : ofFunction module function = .ok flow) {id label : Nat} :
    flow.graph.label? id = some label ↔ label = id ∧ id ∈ module.instructionsOf function := by
  obtain ⟨info, found, built⟩ := graph_of_ofFunction succeeded
  have instructions : module.instructionsOf function =
      (info.blocks.filterMap module.block?).flatMap BlockInfo.instructions := by
    simp [Module.instructionsOf, found]
  rw [Graph.label?_of_build built, ← instructions]
  -- Nothing but an instruction with itself as its label is ever inserted.
  have own : ∀ other, (Graph.isolated ((module.instructionsOf function).map fun id => (id, id)) :
      Graph ValueId FlowKind).label? id = some other → other = id := by
    apply Graph.foldl_keeps fun graph : Graph ValueId FlowKind =>
      ∀ other, graph.label? id = some other → other = id
    · simp [Graph.label?_of_not_mem (Graph.not_mem_empty id)]
    · intro graph node listed keeps other
      obtain ⟨inserted, _, rfl⟩ := List.mem_map.mp listed
      rw [Graph.label?_insertNode]
      split
      next here => exact fun same => (Option.some.inj same).symm.trans here
      next => exact keeps other
  have member : id ∈ (Graph.isolated ((module.instructionsOf function).map fun id => (id, id)) :
      Graph ValueId FlowKind) ↔ id ∈ module.instructionsOf function := by
    simp [Graph.mem_isolated, Function.comp_def]
  constructor
  · intro labelled
    exact ⟨own label labelled, member.mp (Graph.mem_iff_label?.mpr ⟨label, labelled⟩)⟩
  · rintro ⟨rfl, listed⟩
    obtain ⟨other, labelled⟩ := Graph.mem_iff_label?.mp (member.mpr listed)
    rw [labelled, own other labelled]

theorem mem_iff (succeeded : ofFunction module function = .ok flow) {id : Nat} :
    id ∈ flow.graph ↔ id ∈ module.instructionsOf function := by
  rw [Graph.mem_iff_label?]
  simp only [label?_eq_some_iff succeeded, exists_eq_left]

theorem mem_exits_iff (succeeded : ofFunction module function = .ok flow) {id : Nat} :
    id ∈ flow.exits ↔ flow.graph.IsExit id := by
  obtain ⟨built, _, _, exits⟩ := ofFunction_spec succeeded
  rw [exits, exits_eq_boundary built.coherent, Graph.mem_boundary_backward]

end FlowGraph

namespace Escape

variable {module : Module} {function : ValueId} {flow : FlowGraph}

/-! ### The analysis collects contributions -/

theorem problem_collects (succeeded : FlowGraph.ofFunction module function = .ok flow) :
    (problem module flow).Collects fun nodes fact =>
      Holds module (.ofInstructions module nodes) fact where
  initial := by
    rw [Parts.ofInstructions_empty]
    exact holds_empty module
  top := by
    rw [Parts.ofInstructions_empty]
    exact holds_empty module
  meet := by
    intro left right a b left_holds right_holds
    rw [Parts.ofInstructions_union]
    exact left_holds.meet right_holds
  transfer := by
    intro nodes fact id label labelled holds
    obtain ⟨rfl, _⟩ := (FlowGraph.label?_eq_some_iff succeeded).mp labelled
    rw [Parts.ofInstructions_insert]
    exact holds.transfer label
  sUnion := Holds.sUnion

private theorem sources_eq (succeeded : FlowGraph.ofFunction module function = .ok flow)
    (id : ValueId) :
    (problem module flow).sources id = {source | flow.graph.Reaches source id} := by
  have coherent := (FlowGraph.ofFunction_spec succeeded).1.coherent
  have feeds : (problem module flow).direction.Feeds (problem module flow).graph =
      flow.graph.HasEdge := by
    ext source target
    exact Direction.feeds_forward_iff coherent
  ext source
  rw [Problem.sources, feeds]
  exact (Graph.reaches_iff coherent).symm

/-! ### Facts at the exits -/

private theorem mapM_eq_ok_map {ε α β : Type} {body : α → Except ε β} {result : α → β}
    (elements : List α) (each : ∀ element ∈ elements, body element = .ok (result element)) :
    elements.mapM body = .ok (elements.map result) := by
  induction elements with
  | nil => rfl
  | cons first rest ih =>
    rw [List.mapM_cons, each first List.mem_cons_self,
      ih fun element member => each element (List.mem_cons_of_mem first member)]
    rfl

/-- Every node has a fact when the run has settled, so no fact is missing at an exit. -/
theorem atExits_eq (succeeded : FlowGraph.ofFunction module function = .ok flow)
    {solution : Problem.Solution EscapeGraph} {nodeLimit fuel : Nat}
    (solved : (problem module flow).solve nodeLimit fuel = .ok solution) :
    atExits flow solution = .ok (EscapeGraph.domain.meetAll
      (flow.exits.map ((problem module flow).factsOf solution.outputs))) := by
  have coherent := (FlowGraph.ofFunction_spec succeeded).1.coherent
  rw [atExits, mapM_eq_ok_map flow.exits fun id listed => ?_]
  · rfl
  · have member : id ∈ solution.outputs :=
      (Problem.mem_outputs_of_solve coherent solved id).mpr
        ((FlowGraph.mem_exits_iff succeeded).mp listed).1
    rw [Problem.getElem?_eq_factsOf (problem module flow) member]

theorem summary_eq_ok_iff {escape : EscapeGraph} :
    summary module function = .ok escape ↔
      ∃ flow solution, FlowGraph.ofFunction module function = .ok flow ∧
        (problem module flow).solve Problem.defaultNodeLimit 0 = .ok solution ∧
        atExits flow solution = .ok escape := by
  rw [summary]
  cases built : FlowGraph.ofFunction module function with
  | error error => simp [bind, Except.bind]
  | ok flow =>
    cases solved : (problem module flow).solve Problem.defaultNodeLimit 0 with
    | error stopped => simp [bind, Except.bind, Except.mapError, solved]
    | ok solution =>
      cases facts : atExits flow solution with
      | error fault => simp [bind, Except.bind, Except.mapError, solved, facts]
      | ok escape => simp [bind, Except.bind, Except.mapError, solved, facts]

/-- A summary is made of what the instructions contribute from which an exit can be reached. -/
theorem summary_holds {escape : EscapeGraph}
    (succeeded : FlowGraph.ofFunction module function = .ok flow)
    (analysed : summary module function = .ok escape) :
    Holds module (.ofInstructions module {id | flow.graph.ReachesExit id}) escape := by
  obtain ⟨_, solution, also_succeeded, solved, facts⟩ := summary_eq_ok_iff.mp analysed
  obtain rfl := Except.ok.inj (succeeded.symm.trans also_succeeded)
  have coherent := (FlowGraph.ofFunction_spec succeeded).1.coherent
  have collects := problem_collects succeeded
  have each : ∀ exit ∈ flow.exits, Holds module
      (.ofInstructions module ((problem module flow).sources exit))
      ((problem module flow).factsOf solution.outputs exit) := fun exit listed =>
    collects.solve coherent solved ((FlowGraph.mem_exits_iff succeeded).mp listed).1
  have met := collects.meetAll flow.exits _ _ each
  rw [atExits_eq succeeded solved] at facts
  obtain rfl := Except.ok.inj facts
  -- Whatever flows into the fact of an exit reaches the exit.
  have same : {id | flow.graph.ReachesExit id} =
      {id | ∃ exit ∈ flow.exits, id ∈ (problem module flow).sources exit} := by
    ext id
    simp [Graph.ReachesExit, sources_eq succeeded, FlowGraph.mem_exits_iff succeeded]
  rw [same]
  exact met

/-! ### What the parts say about the graph -/

theorem Names.known {id memory : ValueId} (names : Names module id memory) :
    ∃ kind, module.memory? memory = some kind := by
  cases names with
  | allocation found => exact ⟨_, memory?_of_instruction found rfl⟩
  | call allocates =>
    obtain ⟨_, ⟨_, found⟩ | ⟨_, _, _, found⟩⟩ := allocates
    · exact ⟨_, memory?_of_instruction found rfl⟩
    · exact ⟨_, memory?_of_instruction found rfl⟩
  | target stores =>
    obtain ⟨_, _, _, _, _, _, _, _, into, _⟩ := stores
    exact ⟨_, memory?_of_pointee? into⟩
  | source stores =>
    obtain ⟨_, _, _, _, _, _, _, _, _, stored⟩ := stores
    exact ⟨_, memory?_of_pointee? stored⟩
  | returned returns =>
    obtain ⟨_, _, _, refers⟩ := returns
    exact ⟨_, memory?_of_pointee? refers⟩

variable {parts : Parts} {escape : EscapeGraph}

private theorem Holds.label?_eq (holds : Holds module parts escape) {id : ValueId}
    (member : id ∈ escape.graph) :
    escape.graph.label? id = module.memory? id := by
  obtain ⟨kind, labelled⟩ := Graph.mem_iff_label?.mp member
  rw [labelled, ((holds.memory id kind).mp labelled).2]

theorem Holds.edgeLabels_eq (holds : Holds module parts escape) {target source : ValueId}
    (member : (target, source) ∈ parts.pointers) {kind : MemoryKind}
    (known : module.memory? target = some kind) :
    escape.graph.edgeLabels target source = [kind.storeKind] := by
  apply List.perm_singleton.mp
  rw [List.perm_ext_iff_of_nodup (holds.single target source) (List.nodup_singleton _)]
  intro label
  simp [holds.pointers, member, known, eq_comm]

theorem Holds.edgeLabels_eq_nil (holds : Holds module parts escape) {target source : ValueId}
    (absent : (target, source) ∉ parts.pointers) : escape.graph.edgeLabels target source = [] := by
  rw [List.eq_nil_iff_forall_not_mem]
  intro label listed
  exact absent ((holds.pointers target source label).mp listed).1

/-- The summary of a function holds what those of its instructions contribute from which an exit can
be reached, and nothing else. A node has the kind of its value, and there is one edge for each pair
of memory such that a pointer to the second is stored into the first. -/
theorem summary_exact (module : Module) (function : ValueId) (escape : EscapeGraph)
    (analysed : summary module function = .ok escape) :
    ∃ flow, FlowGraph.ofFunction module function = .ok flow ∧
      (∀ id, id ∈ flow.graph ↔ id ∈ module.instructionsOf function) ∧
      (∀ id, id ∈ escape.graph ↔
        ∃ contributor, flow.graph.ReachesExit contributor ∧ Names module contributor id) ∧
      (∀ id ∈ escape.graph, escape.graph.label? id = module.memory? id) ∧
      (∀ target source,
        ((∃ contributor, flow.graph.ReachesExit contributor ∧
          Stores module contributor target source) →
          escape.graph.edgeLabels target source =
            [if module.memory? target = some .object then .internal else .external]) ∧
        ((¬ ∃ contributor, flow.graph.ReachesExit contributor ∧
            Stores module contributor target source) →
          escape.graph.edgeLabels target source = [])) ∧
      (∀ id sites, escape.callSites[id]? = some sites ↔
        (flow.graph.ReachesExit id ∧ Allocates module id) ∧ sites = {id}) ∧
      ∀ id, id ∈ escape.returned ↔
        ∃ contributor, flow.graph.ReachesExit contributor ∧ Returns module contributor id := by
  obtain ⟨flow, _, succeeded, _, _⟩ := summary_eq_ok_iff.mp analysed
  have holds := summary_holds succeeded analysed
  refine ⟨flow, succeeded, fun id => FlowGraph.mem_iff succeeded, ?_, fun id => holds.label?_eq, ?_,
    holds.calls, holds.returned⟩
  · intro id
    rw [Graph.mem_iff_label?]
    simp only [holds.memory]
    constructor
    · rintro ⟨_, named, _⟩
      exact named
    · rintro ⟨contributor, reaches, names⟩
      obtain ⟨kind, known⟩ := names.known
      exact ⟨kind, ⟨contributor, reaches, names⟩, known⟩
  · intro target source
    constructor
    · rintro ⟨contributor, reaches, stores⟩
      obtain ⟨kind, known⟩ := (Names.target stores).known
      rw [holds.edgeLabels_eq ⟨contributor, reaches, stores⟩ known, known]
      cases kind <;> rfl
    · exact fun unstored => holds.edgeLabels_eq_nil unstored

/-- A function that stores an allocation into its argument and then either returns what it got from
a call or goes on allocating for ever. Its last block allocates, too, but nothing leads to it. -/
def endless : Module where
  identifier := ""
  dataLayout := ""
  targetTriple := ""
  inlineAsm := ""
  littleEndian := true
  pointerSize := 64
  globals := []
  aliases := []
  functions := [0]
  values :=
    let contents : List Content :=
      [.function { external := false, align := 0, linkage := .external, visibility := .standard
                   sectionName := none, callingConvention := .c, gc := none, arguments := [1]
                   blocks := [2, 3, 4, 5], vararg := false },
        .argument {},
        .basicBlock { instructions := [6, 7, 8] }, .basicBlock { instructions := [9, 10] },
        .basicBlock { instructions := [11, 12] }, .basicBlock { instructions := [13, 14] },
        .instruction (.alloca none 0), .instruction (.store 6 1 false 0 0),
        .instruction (.condBr 15 3 4),
        .instruction (.call { callee := 0, arguments := [1], callingConvention := .c
                              tailCall := false, structReturn := false }),
        .instruction (.ret (some 9)),
        .instruction (.alloca none 0), .instruction (.br 4),
        .instruction (.alloca none 0), .instruction (.br 3), .constant (.int 1)]
    contents.zipIdx.map fun (content, id) =>
      { id, header := { name := none, ty := 0, location := none }, content }
  types := [.pointer 0 0]
  owners := ∅

/-- What is allocated for ever does not count, and what nothing leads to does. -/
theorem endless_summary :
    ∃ escape flow, summary endless 0 = .ok escape ∧ FlowGraph.ofFunction endless 0 = .ok flow ∧
      ¬ flow.graph.ReachesExit 11 ∧
      (∃ contributor, flow.graph.ReachesExit contributor ∧ Names endless contributor 13) ∧
      flow.graph.ReachesExit 9 ∧ Allocates endless 9 ∧
      escape.graph.label? 1 = endless.memory? 1 ∧ escape.graph.edgeLabels 1 6 = [.external] ∧
      ∃ contributor, flow.graph.ReachesExit contributor ∧ Returns endless contributor 9 := by
  have run : (FlowGraph.ofFunction endless 0).toOption.map (fun flow =>
      ((problem endless flow).budget Problem.defaultNodeLimit 0,
        ((problem endless flow).runFrom 10 (problem endless flow).start).worklist.isEmpty)) =
        some (180, true) := by
    decide +kernel
  have facts : (FlowGraph.ofFunction endless 0).toOption.map (fun flow =>
      let outputs := ((problem endless flow).runFrom 10 (problem endless flow).start).outputs
      let escape := EscapeGraph.domain.meetAll
        (flow.exits.map ((problem endless flow).factsOf outputs))
      (escape.graph.ids, escape.graph.edgeLabels 1 6, escape.callSites[9]?.isSome,
        escape.returned.toList)) = some ([1, 6, 9, 13], [.external], true, [9]) := by
    decide +kernel
  obtain ⟨flow, succeeded, run⟩ := exists_ok_of_toOption_map run
  obtain ⟨budget, settled⟩ := Prod.mk.inj run
  simp only [succeeded, Except.toOption, Option.map_some, Option.some.injEq, Prod.mk.injEq] at facts
  obtain ⟨ids, edges, calls, returned⟩ := facts
  have solved : (problem endless flow).solve Problem.defaultNodeLimit 0 =
      .ok { outputs := ((problem endless flow).runFrom 10 (problem endless flow).start).outputs } :=
    Problem.solve_of_settled settled (by rw [budget]; decide)
  have analysed := summary_eq_ok_iff.mpr ⟨flow, _, succeeded, solved, atExits_eq succeeded solved⟩
  obtain ⟨also_flow, also_succeeded, _, nodes, kinds, _, sites, returns⟩ :=
    summary_exact endless 0 _ analysed
  obtain rfl := Except.ok.inj (succeeded.symm.trans also_succeeded)
  generalize EscapeGraph.domain.meetAll _ = escape at *
  have member : ∀ id, id ∈ escape.graph ↔ id ∈ [1, 6, 9, 13] := fun id => by
    rw [← ids, Graph.mem_ids]
  obtain ⟨_, found⟩ := Option.isSome_iff_exists.mp calls
  have called := ((sites 9 _).mp found).1
  refine ⟨escape, flow, analysed, succeeded, ?_, (nodes 13).mp ((member 13).mpr (by simp)),
    called.1, called.2, kinds 1 ((member 1).mpr (by simp)), edges, (returns 9).mp ?_⟩
  · intro reaches
    have counted := (nodes 11).mpr ⟨11, reaches, .allocation rfl⟩
    simp [member] at counted
  · rw [← Std.ExtTreeSet.mem_toList, returned]
    simp

end Escape

end FlowIR
