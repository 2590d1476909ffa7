import FlowIR.Proofs.ControlFlow.Graphs

/-!
# Escape graphs without missing nodes

At any time of the analysis, every instruction has an escape graph. It is coherent, and its nodes
are values of the module. So graphs can always be put together, a stored pointer always joins two
nodes, and the objects that escape can be named.
-/
namespace FlowIR

/-! ### Changes of an escape graph -/

namespace EscapeGraph

variable {escape : EscapeGraph}

theorem mem_addMemory {id other : Nat} {kind : MemoryKind} :
    other ∈ (escape.addMemory id kind).graph ↔ other = id ∨ other ∈ escape.graph := by
  rw [addMemory]
  split
  next known => exact ⟨Or.inr, fun either => either.elim (fun same => same ▸ known) fun old => old⟩
  next => rw [Graph.mem_insertNode, eq_comm]

/-- When a pointer is stored, both pieces of memory have become nodes. -/
theorem stored_mem (escape : EscapeGraph) (target source : Nat)
    (targetKind sourceKind : MemoryKind) :
    target ∈ ((escape.addMemory target targetKind).addMemory source sourceKind).graph ∧
      source ∈ ((escape.addMemory target targetKind).addMemory source sourceKind).graph := by
  simp [mem_addMemory]

private theorem coherent_addMemory (coherent : escape.graph.Coherent) (id : Nat)
    (kind : MemoryKind) :
    (escape.addMemory id kind).graph.Coherent := by
  rw [addMemory]
  split
  · exact coherent
  · exact coherent.insertNode id kind

private theorem coherent_addPointer (coherent : escape.graph.Coherent) {target source : Nat}
    (kind : StoreKind) (target_mem : target ∈ escape.graph) (source_mem : source ∈ escape.graph) :
    (escape.addPointer target source kind).graph.Coherent := by
  rw [addPointer]
  split
  · exact coherent
  · exact coherent.addEdge kind target_mem source_mem

end EscapeGraph

namespace Escape

variable {module : Module} {function : ValueId} {flow : FlowGraph}

theorem coherent_transfer {before : EscapeGraph} (coherent : before.graph.Coherent) (id : ValueId) :
    (transfer module before id).graph.Coherent := by
  have allocated : (transfer.allocated module id before).graph.Coherent := by
    rw [transfer.allocated]
    split
    · exact EscapeGraph.coherent_addMemory coherent id .object
    · exact coherent
  rw [transfer.eq_def]
  split
  · exact EscapeGraph.coherent_addMemory coherent id .object
  · exact allocated
  · exact allocated
  · split
    next target targetKind source sourceKind _ _ =>
      obtain ⟨target_mem, source_mem⟩ := before.stored_mem target source targetKind sourceKind
      have with_target := EscapeGraph.coherent_addMemory coherent target targetKind
      have with_both := EscapeGraph.coherent_addMemory with_target source sourceKind
      exact EscapeGraph.coherent_addPointer with_both _ target_mem source_mem
    · exact coherent
  · split
    next memory kind _ => exact EscapeGraph.coherent_addMemory coherent memory kind
    · exact coherent
  · exact coherent

/-! ### Along the run -/

theorem problem_collects_coherent (module : Module) (flow : FlowGraph) :
    (problem module flow).Collects fun _ fact => fact.graph.Coherent where
  initial := Graph.Coherent.empty
  top := Graph.Coherent.empty
  meet := fun left_coherent right_coherent => left_coherent.merge right_coherent
  transfer := fun _ coherent => coherent_transfer coherent _
  sUnion := fun nonempty each => nonempty.elim fun nodes member => each nodes member

/-- The nodes of the graph are values that stand for memory. -/
theorem Holds.lt_of_mem {parts : Parts} {escape : EscapeGraph} (holds : Holds module parts escape)
    {id : ValueId} (member : id ∈ escape.graph) : id < module.values.length := by
  obtain ⟨kind, labelled⟩ := Graph.mem_iff_label?.mp member
  obtain ⟨content, found, _⟩ := Option.bind_eq_some_iff.mp ((holds.memory id kind).mp labelled).2
  exact Module.lt_of_content? found

/-- A graph that lacks nothing when it is put together with others, searched or printed. -/
structure Complete (module : Module) (escape : EscapeGraph) : Prop where
  coherent : escape.graph.Coherent
  known : ∀ id ∈ escape.graph, id < module.values.length

section

variable (succeeded : FlowGraph.ofFunction module function = .ok flow)
include succeeded

/-- After any number of visits, every node has a fact. -/
theorem exists_fact (visits : Nat) {id : ValueId} (member : id ∈ flow.graph) :
    ∃ fact, ((problem module flow).runFrom visits (problem module flow).start).outputs[id]? =
      some fact ∧
      Complete module fact := by
  have coherent := (FlowGraph.ofFunction_spec succeeded).1.coherent
  -- Without a limit for each node the fuel is the number of visits.
  have run : (problem module flow).run 0 visits =
      (problem module flow).runFrom visits (problem module flow).start := rfl
  have consistent := (problem module flow).consistent_run coherent 0 visits
  have recorded :=
    Problem.getElem?_eq_factsOf (problem module flow) ((consistent.same_nodes id).mpr member)
  obtain ⟨_, fact_coherent, _⟩ :=
    (problem_collects_coherent module flow).within_run coherent 0 visits id member
  obtain ⟨_, holds, _⟩ := (problem_collects succeeded).within_run coherent 0 visits id member
  exact ⟨_, run ▸ recorded, fact_coherent, fun _ => holds.lt_of_mem⟩

/-- Every exit has a fact, and so there is a summary once the run has settled. -/
theorem exists_atExits {solution : Problem.Solution EscapeGraph} {nodeLimit fuel : Nat}
    (solved : (problem module flow).solve nodeLimit fuel = .ok solution) :
    ∃ escape, atExits flow solution = .ok escape ∧ Complete module escape := by
  have coherent := (FlowGraph.ofFunction_spec succeeded).1.coherent
  have exits : ∀ exit ∈ flow.exits, exit ∈ flow.graph :=
    fun exit listed => ((FlowGraph.mem_exits_iff succeeded).mp listed).1
  have collects := problem_collects_coherent module flow
  refine ⟨_, atExits_eq succeeded solved, ?_, ?_⟩
  · exact collects.meetAll flow.exits (problem module flow).sources _
      fun exit listed => collects.solve coherent solved (exits exit listed)
  · have holds := (problem_collects succeeded).meetAll flow.exits (problem module flow).sources _
      fun exit listed => (problem_collects succeeded).solve coherent solved (exits exit listed)
    exact fun _ => holds.lt_of_mem

end

theorem isSome_reportLine? (sound : module.Sound) (listed : function ∈ module.functions)
    {escape : EscapeGraph} (complete : Complete module escape) :
    (reportLine? module function escape).isSome = true := by
  rw [reportLine?]
  apply isSome_bind
  · apply isSome_mapM
    intro object member
    obtain ⟨⟨id, kind⟩, node, rfl⟩ := List.mem_map.mp member
    have labelled := Graph.mem_nodes.mp (List.mem_filter.mp node).1
    exact sound.isSome_operandName? (complete.known id (Graph.mem_iff_label?.mpr ⟨kind, labelled⟩))
  · intro names
    exact isSome_bind (sound.isSome_operandName? (sound.function_lt listed)) fun _ => rfl

/-! ### Base pointers -/

/-- The second value is the base pointer of the first one. -/
def HasBase (module : Module) (id base : ValueId) : Prop :=
  ∃ content, module.content? id = some content ∧ base? content = some base

private theorem basePointer?_mem_operands {instruction : Instruction} {base : ValueId}
    (found : instruction.basePointer? = some base) : base ∈ instruction.operands := by
  cases instruction <;> simp_all [Instruction.basePointer?, Instruction.operands]

theorem HasBase.lt (sound : module.Sound) {id base : ValueId} (has_base : HasBase module id base) :
    base < module.values.length := by
  obtain ⟨content, found, based⟩ := has_base
  apply sound.closed id content found base
  rw [base?.eq_def] at based
  split at based
  · exact basePointer?_mem_operands based
  · exact basePointer?_mem_operands based
  · cases based

/-- Following base pointers never leads out of the module. -/
theorem lt_of_hasBase (sound : module.Sound) {id last : ValueId} (bound : id < module.values.length)
    (leads : Relation.ReflTransGen (HasBase module) id last) : last < module.values.length := by
  induction leads with
  | refl => exact bound
  | tail _ has_base _ => exact has_base.lt sound

end Escape

end FlowIR
