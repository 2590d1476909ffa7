import FlowIR.Command.Report
import FlowIR.Proofs.Dominance.Bounds
import FlowIR.Proofs.Escape.Coherence
import FlowIR.Proofs.Link.Lookups

/-!
# The command never looks for something that is not there

Whatever the text and the options are, the command ends with an output or with one of the errors
that it knows. For every module that was linked, each number that a text or an analysis looks up is
that of a value or a type, each edge that is inserted joins two nodes, each node that a traversal
enters has a place in its bit set, and each fact that is asked for is there.
-/
namespace FlowIR

/-! ### What may go wrong -/

/-- The errors with which an analysis of a function of the module may end. -/
def AnalysisError.IsExpected : AnalysisError → Prop
  | declaration _ | didNotConverge _ => True
  | notAFunction _ | fault _ => False

def Command.CommandError.IsExpected : CommandError → Prop
  | link _ | unknownFunction _ => True
  | analysis cause => cause.IsExpected

/-! ### What is looked up -/

/-- All that is looked up for one function is there. -/
structure FlowGraph.Faultless (module : Module) (flow : FlowGraph) : Prop where
  instructions : ∀ id ∈ flow.graph, (module.instruction? id).isSome = true
  /-- Bit sets of nodes are large enough in both directions. -/
  traversed : flow.graph.FitsBitSet ∧ flow.graph.reverse.FitsBitSet
  text : (flow.toDot? module).isSome = true
  postdominators : DominatorForest.Regular flow.backward flow.exits
  /-- The dependence graph is built without a missing end, and every instruction is reached from
  itself. -/
  dependence : ∃ dependence, DependenceGraph.ofFlow flow = .ok dependence ∧
    dependence.graph.FitsBitSet ∧
    (dependence.toDot? module).isSome = true ∧
    ∀ id ∈ flow.graph, ∃ others, dependence.transitive id = .ok others
  /-- Facts only flow in from nodes. -/
  incoming : ∀ id, ∀ edge ∈ Direction.incoming .forward flow.graph id, edge.1 ∈ flow.graph
  /-- At any time of the analysis every node has a fact, which can be put into every other one. -/
  facts : let problem := Escape.problem module flow
    ∀ visits, ∀ id ∈ flow.graph, ∃ fact,
      (problem.runFrom visits problem.start).outputs[id]? = some fact ∧
      ∀ other : EscapeGraph, other.graph.Joins fact.graph
  /-- All exits have facts when the analysis has settled, and what they say together can be searched
  and printed. -/
  exits : ∀ nodeLimit fuel solution, (Escape.problem module flow).solve nodeLimit fuel =
    .ok solution →
    ∃ escape, Escape.atExits flow solution = .ok escape ∧ escape.graph.FitsBitSet ∧
      (Escape.reportLine? module flow.function escape).isSome = true

/-- All that is looked up in the module is there. -/
structure Module.Faultless (module : Module) : Prop where
  types : ∀ ty ∈ module.types, ∀ inner ∈ ty.inners, inner < module.types.length
  listed : ∀ id ∈ module.globals ++ module.aliases ++ module.functions, id < module.values.length
  closed : ∀ id content, module.content? id = some content →
    ∀ inner ∈ content.references, inner < module.values.length
  /-- Every value has a type, a text as an operand and a text of its own. -/
  texts : ∀ id < module.values.length, (module.typeOf? id).isSome = true ∧
    (module.operandName? id).isSome = true ∧ (module.valueText? id).isSome = true
  /-- Following base pointers never leads out of the module. -/
  bases : ∀ id < module.values.length, ∀ last,
    Relation.ReflTransGen (Escape.HasBase module) id last →
    last < module.values.length
  /-- A function has no graph only if it has no instruction to start with. -/
  functions : ∀ function ∈ module.functions,
    FlowGraph.ofFunction module function = .error (.declaration function) ∨
      ∃ flow, FlowGraph.ofFunction module function = .ok flow ∧ flow.Faultless module

/-- Only functions of the module are selected. -/
theorem Command.listed_of_selectedFunctions {module : Module} {options : Options}
    {functions : List ValueId} (selected : selectedFunctions module options = .ok functions) :
    functions ⊆ module.functions := by
  rw [selectedFunctions] at selected
  split at selected
  · obtain rfl := Except.ok.inj selected
    exact fun _ member => (List.mem_filter.mp member).1
  · split at selected
    next id found =>
      obtain rfl := Except.ok.inj selected
      intro other member
      rw [List.mem_singleton.mp member]
      exact List.mem_of_find?_eq_some found
    · cases selected

namespace Escape

private theorem mem_of_getElem?_insertMany {α : Type} {pairs : List (Nat × α)}
    {start : Std.ExtTreeMap Nat α} {key : Nat} {value : α}
    (found : (start.insertMany pairs)[key]? = some value) :
    start[key]? = some value ∨ (key, value) ∈ pairs := by
  induction pairs generalizing start with
  | nil => exact Or.inl (by simpa using found)
  | cons first rest ih =>
    rw [Std.ExtTreeMap.insertMany_cons] at found
    -- A later pair may hide the first one, but then it is in the list itself.
    rcases ih found with early | late
    · rw [Std.ExtTreeMap.getElem?_insert] at early
      split at early
      next here =>
        have same : first = (key, value) := Prod.ext (by simpa using here) (Option.some.inj early)
        exact Or.inr (same ▸ List.mem_cons_self)
      next => exact Or.inl early
    · exact Or.inr (List.mem_cons_of_mem first late)

private theorem summary_of_mem_summaries {module : Module}
    {summaries : Std.ExtTreeMap ValueId EscapeGraph} {function : ValueId} {escape : EscapeGraph}
    (computed : Escape.summaries module = .ok summaries)
    (member : (function, escape) ∈ summaries.toList) :
    function ∈ module.definedFunctions ∧ summary module function = .ok escape := by
  rw [Escape.summaries] at computed
  generalize collected : List.mapM (fun function => do return (function, ← summary module function))
    module.definedFunctions = outcome at computed
  cases outcome with
  | error error => cases computed
  | ok pairs =>
    obtain rfl := Except.ok.inj computed
    rw [Std.ExtTreeMap.mem_toList_iff_getElem?_eq_some,
      Std.ExtTreeMap.ofList_eq_insertMany_empty] at member
    have listed := (mem_of_getElem?_insertMany member).resolve_left (by simp)
    -- The pair was made for one of the functions, with its own summary.
    obtain ⟨other, defined, made⟩ := exists_of_mem_mapM collected listed
    cases summarized : summary module other with
    | error error => simp [summarized, bind, Except.bind] at made
    | ok own =>
      obtain ⟨rfl, rfl⟩ : other = function ∧ own = escape := by
        simpa [summarized, bind, Except.bind, pure, Except.pure] using made
      exact ⟨defined, summarized⟩

end Escape

namespace Module.Sound

variable {module : Module} (sound : module.Sound) {function : ValueId} {flow : FlowGraph}
include sound

private theorem flow_faultless (listed : function ∈ module.functions)
    (succeeded : FlowGraph.ofFunction module function = .ok flow) : flow.Faultless module := by
  obtain ⟨built, same_function, reversed, _⟩ := FlowGraph.ofFunction_spec succeeded
  have coherent := built.coherent
  obtain ⟨dependence, computed, dependence_function, dependence_coherent, exact_edges⟩ :=
    DependenceGraph.exists_ofFlow succeeded
  have same_labels := exact_edges.same_labels
  constructor
  case instructions =>
    intro id member
    exact Option.isSome_iff_exists.mpr (sound.exists_instruction_of_mem listed succeeded member)
  case traversed => exact ⟨coherent.fitsBitSet, coherent.reverse.fitsBitSet⟩
  case text => exact sound.isSome_flow_toDot? listed succeeded
  case postdominators =>
    have backward : flow.backward = flow.graph.reverse := by
      rw [FlowGraph.backward, reversed]
      rfl
    rw [backward]
    exact DominatorForest.regular_of_coherent coherent.reverse flow.exits
  case dependence =>
    refine ⟨dependence, computed, dependence_coherent.fitsBitSet,
      sound.isSome_dependence_toDot? listed succeeded dependence_function same_labels,
      fun id member => ?_⟩
    apply DependenceGraph.exists_transitive
    rw [Graph.mem_iff_label?, same_labels, ← Graph.mem_iff_label?]
    exact member
  case incoming =>
    intro id edge member
    have feeds : Direction.Feeds .forward flow.graph edge.1 id := ⟨edge.2, member⟩
    exact feeds.source_mem coherent
  case facts =>
    intro problem visits id member
    obtain ⟨fact, recorded, complete⟩ := Escape.exists_fact succeeded visits member
    exact ⟨fact, recorded, fun other => complete.coherent.joins other.graph⟩
  case exits =>
    intro nodeLimit fuel solution solved
    obtain ⟨escape, together, complete⟩ := Escape.exists_atExits succeeded solved
    refine ⟨escape, together, complete.coherent.fitsBitSet, ?_⟩
    rw [same_function]
    exact Escape.isSome_reportLine? sound listed complete

private theorem faultless : module.Faultless where
  types := sound.types_closed
  listed := by
    intro id member
    simp only [List.mem_append] at member
    rcases member with (global | other_name) | function
    · exact sound.globals id global
    · exact sound.aliases id other_name
    · exact sound.function_lt function
  closed := sound.closed
  texts := fun _ bound =>
    ⟨sound.isSome_typeOf? bound, sound.isSome_operandName? bound, sound.isSome_valueText? bound⟩
  bases := fun _ bound _ leads => Escape.lt_of_hasBase sound bound leads
  functions := by
    intro function listed
    rcases sound.ofFunction_outcome listed with declared | ⟨flow, succeeded⟩
    · exact Or.inl declared
    · exact Or.inr ⟨flow, succeeded, sound.flow_faultless listed succeeded⟩

/-! ### The command -/

private theorem failsOnly_ofFunction (listed : function ∈ module.functions) :
    FailsOnly AnalysisError.IsExpected (FlowGraph.ofFunction module function) := by
  rcases sound.ofFunction_outcome listed with declared | ⟨flow, succeeded⟩
  · rw [declared]
    trivial
  · rw [succeeded]
    trivial

private theorem failsOnly_graphs (options : Command.Options)
    (listed : function ∈ module.functions) :
    FailsOnly AnalysisError.IsExpected (Command.graphs module options function) := by
  apply (sound.failsOnly_ofFunction listed).bind
  intro flow succeeded
  -- Once there is a graph, nothing that is printed about it can be missing.
  have faultless := sound.flow_faultless listed succeeded
  obtain ⟨dependence, computed, _, dependence_text, _⟩ := faultless.dependence
  obtain ⟨text, written⟩ := Option.isSome_iff_exists.mp faultless.text
  obtain ⟨other_text, also_written⟩ := Option.isSome_iff_exists.mp dependence_text
  simp only [computed, written, bind, Except.bind, also_written]
  cases options.dumpFlow <;> cases options.dumpDependence <;> trivial

private theorem failsOnly_allGraphs (options : Command.Options) :
    FailsOnly Command.CommandError.IsExpected (Command.allGraphs module options) := by
  rw [Command.allGraphs]
  split
  · apply FailsOnly.bind
    · rw [Command.selectedFunctions]
      split
      · trivial
      · split <;> trivial
    intro functions selected
    have all_listed := Command.listed_of_selectedFunctions selected
    apply FailsOnly.bind
    · apply failsOnly_mapM
      intro function member
      exact failsOnly_mapError (sound.failsOnly_graphs options (all_listed member))
    · exact fun _ _ => trivial
  · trivial

private theorem failsOnly_summary (listed : function ∈ module.functions) :
    FailsOnly AnalysisError.IsExpected (Escape.summary module function) := by
  apply (sound.failsOnly_ofFunction listed).bind
  intro flow succeeded
  apply FailsOnly.bind
  · apply failsOnly_mapError
    cases (Escape.problem module flow).solve Problem.defaultNodeLimit 0 <;> trivial
  intro solution solved
  obtain ⟨escape, together, _⟩ := Escape.exists_atExits succeeded (eq_ok_of_mapError solved)
  rw [together]
  trivial

private theorem failsOnly_escapeReport :
    FailsOnly AnalysisError.IsExpected (Escape.report module) := by
  have defined_listed : ∀ function ∈ module.definedFunctions, function ∈ module.functions :=
    fun function member => (List.mem_filter.mp member).1
  apply FailsOnly.bind
  · apply FailsOnly.bind
    · apply failsOnly_mapM
      intro function member
      exact (sound.failsOnly_summary (defined_listed function member)).bind fun _ _ => trivial
    · exact fun _ _ => trivial
  intro summaries computed
  -- A summary that was computed has all the names that its line needs.
  have lines : (summaries.toList.mapM fun (function, escape) =>
      Escape.reportLine? module function escape).isSome = true := by
    apply isSome_mapM
    rintro ⟨function, escape⟩ member
    obtain ⟨defined, summarized⟩ := Escape.summary_of_mem_summaries computed member
    obtain ⟨flow, solution, succeeded, solved, together⟩ := Escape.summary_eq_ok_iff.mp summarized
    obtain ⟨other, also_together, complete⟩ := Escape.exists_atExits succeeded solved
    obtain rfl := Except.ok.inj (together.symm.trans also_together)
    exact Escape.isSome_reportLine? sound (defined_listed function defined) complete
  obtain ⟨texts, written⟩ := Option.isSome_iff_exists.mp lines
  rw [written]
  trivial

private theorem failsOnly_report (options : Command.Options) :
    FailsOnly Command.CommandError.IsExpected (Command.report options module) := by
  apply (sound.failsOnly_allGraphs options).bind
  intro graph_text _
  split
  · trivial
  next analysis _ =>
    cases analysis
    exact FailsOnly.bind (failsOnly_mapError sound.failsOnly_escapeReport) fun _ _ => trivial

end Module.Sound

namespace Command

private theorem exists_link_of_parse {text : String} {module : Module}
    (parsed : Module.parse text = .ok module) :
    ∃ table : Table, table.link = .ok module := by
  rw [Module.parse] at parsed
  split at parsed
  next table _ => exact ⟨table, parsed⟩
  · cases parsed

private theorem failsOnly_run (options : Options) (text : String) :
    FailsOnly CommandError.IsExpected (run options text) := by
  apply FailsOnly.bind
  · apply failsOnly_mapError
    cases Module.parse text <;> trivial
  intro module parsed
  obtain ⟨table, linked⟩ := exists_link_of_parse (eq_ok_of_mapError parsed)
  exact (Table.sound_of_link linked).failsOnly_report options

/-- Whatever the options and the text are, there is an output or an error that was to be expected.
No key that stands in a list of a table is missing when it is linked, references between types are
never taken for layers, and nothing is missing in a module that was linked. A pointer is only stored
between nodes of an escape graph. -/
theorem run_without_fault :
    (∀ options text, (∃ output, run options text = .ok output) ∨
      ∃ error, run options text = .error error ∧ error.IsExpected) ∧
    (∀ (table : Table), ∀ key ∈ table.listedKeys, table.link ≠ .error (.knotTyingFailure key)) ∧
    (∀ part : Table.TypeExpr, part.isReference = true →
      (∀ ids enclosing first second,
        Link.component ids enclosing part first = Link.component ids enclosing part second) ∧
      ∀ ids key id, Link.linkTypeRecord ids ⟨key, part⟩ id = throw (.malformedType key)) ∧
    (∀ (table : Table) (module : Module), table.link = .ok module → module.Faultless) ∧
    ∀ (escape : EscapeGraph) (target source : Nat) (targetKind sourceKind : MemoryKind),
      target ∈ ((escape.addMemory target targetKind).addMemory source sourceKind).graph ∧
        source ∈ ((escape.addMemory target targetKind).addMemory source sourceKind).graph := by
  refine ⟨fun options text => ?_, fun table key listed failed => ?_, fun part reference => ⟨?_, ?_⟩,
    fun table module linked => ?_, EscapeGraph.stored_mem⟩
  · have fails := failsOnly_run options text
    cases outcome : run options text with
    | ok output => exact Or.inl ⟨output, rfl⟩
    | error error =>
      rw [outcome] at fails
      exact Or.inr ⟨error, rfl, fails⟩
  · exact Table.not_listed_of_unresolved failed listed
  · exact Link.component_of_reference reference
  · intro ids key id
    rw [Link.linkTypeRecord_eq]
    exact if_pos reference
  · exact (Table.sound_of_link linked).faultless

end Command

/-- One branch stores a new object into a global and returns, the other one never ends. -/
def Table.diverging : Table :=
  { types :=
      [{ key := 1, ty := .pointer (.integer 32) 0 }, { key := 2, ty := .integer 1 },
       { key := 3, ty := .label },
       { key := 4, ty := .void }]
    values :=
      [{ key := 10, tag := .globalVariable, name := some "slot", ty := 1, payload := .global {} },
       { key := 20, tag := .function, name := some "leak", ty := 1,
         payload := .function { arguments := [21], blocks := [30, 40, 50] } },
       { key := 21, tag := .argument, name := some "choice", ty := 2, payload := .argument {} },
       { key := 30, tag := .basicBlock, ty := 3, payload := .block { instructions := [31, 32] } },
       { key := 31, tag := .instruction .alloca, ty := 1, payload := .instruction {} },
       { key := 32, tag := .instruction .br, ty := 4,
         payload := .instruction { operands := [21, 40, 50] } },
       { key := 40, tag := .basicBlock, ty := 3, payload := .block { instructions := [41, 42] } },
       { key := 41, tag := .instruction .store, ty := 4,
         payload := .instruction { operands := [31, 10] } },
       { key := 42, tag := .instruction .ret, ty := 4, payload := .instruction {} },
       { key := 50, tag := .basicBlock, ty := 3, payload := .block { instructions := [51] } },
       { key := 51, tag := .instruction .br, ty := 4,
         payload := .instruction { operands := [50] } }]
    globals := [10]
    functions := [20] }

/-- The function of this module has a graph, in which the endless branch does not reach an exit, and
nothing is missing for it. -/
theorem Command.diverging_without_fault : ∃ module flow, Table.diverging.link = .ok module ∧
    FlowGraph.ofFunction module 1 = .ok flow ∧ flow.graph.ids = [4, 5, 7, 8, 10] ∧
    flow.exits = [8] ∧
    flow.Faultless module := by
  have run :
      (Table.diverging.link.toOption.bind fun module => (FlowGraph.ofFunction module 1).toOption.map
      fun flow => (module.functions, flow.graph.ids, flow.exits)) =
          some ([1], [4, 5, 7, 8, 10], [8]) := by
    decide +kernel
  obtain ⟨module, linked, run⟩ := exists_ok_of_toOption_bind run
  obtain ⟨flow, succeeded, run⟩ := exists_ok_of_toOption_map run
  simp only [Prod.mk.injEq] at run
  obtain ⟨functions, nodes, exits⟩ := run
  have faultless := run_without_fault.2.2.2.1 Table.diverging module linked
  rcases faultless.functions 1 (by simp [functions]) with declared | ⟨other, also_succeeded, holds⟩
  · rw [succeeded] at declared
    cases declared
  · obtain rfl := Except.ok.inj (succeeded.symm.trans also_succeeded)
    exact ⟨module, flow, linked, succeeded, nodes, exits, holds⟩

end FlowIR
