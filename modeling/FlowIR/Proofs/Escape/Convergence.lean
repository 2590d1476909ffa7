import FlowIR.Proofs.Command.Faultless
import FlowIR.Proofs.Dataflow.Revisits

/-!
# When the analysis gives up

An escape graph is determined by what it is made of, so each time a fact changes it has taken in the
contribution of one more instruction. This bounds the number of visits by the number of contributing
instructions and of the edges behind loops. A function without loops is always analysed. But the
number of visits that are permitted is linear in the number of instructions, and loops inside of
loops may take more than that. Then the analysis gives up after exactly the permitted number of
visits.
-/
namespace FlowIR

namespace Escape

variable {module : Module} {function : ValueId} {flow : FlowGraph}

/-! ### Escape graphs by their parts -/

namespace Holds

variable {parts : Parts} {a b : EscapeGraph}

private theorem edgeLabels_unique (left : Holds module parts a) (right : Holds module parts b)
    (target source : ValueId) :
    a.graph.edgeLabels target source = b.graph.edgeLabels target source := by
  by_cases member : (target, source) ∈ parts.pointers
  · cases known : module.memory? target with
    | some kind => rw [left.edgeLabels_eq member known, right.edgeLabels_eq member known]
    | none =>
      -- Memory of no kind has no edges in either graph.
      have unlabelled : ∀ {escape}, Holds module parts escape →
          escape.graph.edgeLabels target source = [] := by
        intro escape holds
        simp [List.eq_nil_iff_forall_not_mem, holds.pointers, known]
      rw [unlabelled left, unlabelled right]
  · rw [left.edgeLabels_eq_nil member, right.edgeLabels_eq_nil member]

/-- There is only one coherent graph with given parts. -/
theorem unique (left : Holds module parts a) (right : Holds module parts b)
    (left_coherent : a.graph.Coherent) (right_coherent : b.graph.Coherent) : a = b := by
  have graphs : a.graph = b.graph := by
    apply left_coherent.eq_of_labels right_coherent
    · intro id
      ext kind
      rw [left.memory, right.memory]
    · exact left.edgeLabels_unique right
  have calls : a.callSites = b.callSites := by
    apply Std.ExtTreeMap.ext_getElem?
    intro id
    ext sites
    rw [left.calls, right.calls]
  have returned : a.returned = b.returned := by
    apply Std.ExtTreeSet.ext_mem
    intro id
    rw [left.returned, right.returned]
  cases a
  cases b
  simp_all

/-- What a graph is made of can be read off from it. -/
theorem ofInstructions_unique {some_ids other_ids : Set ValueId}
    (left : Holds module (.ofInstructions module some_ids) a)
    (right : Holds module (.ofInstructions module other_ids) a) :
    Parts.ofInstructions module some_ids = Parts.ofInstructions module other_ids := by
  have memory : ∀ {ids}, Holds module (.ofInstructions module ids) a → ∀ id,
      id ∈ (Parts.ofInstructions module ids).memory ↔ id ∈ a.graph := by
    intro ids holds id
    rw [Graph.mem_iff_label?]
    simp only [holds.memory]
    constructor
    · rintro ⟨contributor, member, names⟩
      obtain ⟨kind, known⟩ := names.known
      exact ⟨kind, ⟨contributor, member, names⟩, known⟩
    · rintro ⟨_, named, _⟩
      exact named
  have pointers : ∀ {ids}, Holds module (.ofInstructions module ids) a → ∀ pair : ValueId × ValueId,
      pair ∈ (Parts.ofInstructions module ids).pointers ↔ a.graph.HasEdge pair.1 pair.2 := by
    intro ids holds pair
    simp only [Graph.HasEdge, holds.pointers]
    constructor
    · rintro ⟨contributor, member, stores⟩
      obtain ⟨kind, known⟩ := (Names.target stores).known
      exact ⟨kind.storeKind, ⟨contributor, member, stores⟩, by rw [known, Option.map_some]⟩
    · rintro ⟨_, stored, _⟩
      exact stored
  have calls : ∀ {ids}, Holds module (.ofInstructions module ids) a → ∀ id,
      id ∈ (Parts.ofInstructions module ids).calls ↔ a.callSites[id]? = some {id} := by
    intro ids holds id
    simp [holds.calls]
  apply Parts.ext
  · ext id
    rw [memory left, memory right]
  · ext pair
    rw [pointers left, pointers right]
  · ext id
    rw [calls left, calls right]
  · ext id
    rw [← left.returned, ← right.returned]

/-- An instruction leaves a graph as it is if its contribution is in it already. -/
theorem transfer_eq_self_iff {ids : Set ValueId}
    (holds : Holds module (.ofInstructions module ids) a) (coherent : a.graph.Coherent)
    (id : ValueId) :
    Escape.transfer module a id = a ↔
      Parts.ofInstructions module (insert id ids) = Parts.ofInstructions module ids := by
  have added := holds.transfer id
  rw [← Parts.ofInstructions_insert] at added
  constructor
  · intro same
    rw [same] at added
    exact added.ofInstructions_unique holds
  · intro same
    rw [same] at added
    exact added.unique holds (coherent_transfer coherent id) coherent

end Holds

/-! ### How far a fact has grown -/

/-- The instructions of the function that contribute something. -/
def contributors (module : Module) (function : ValueId) : Set ValueId :=
  {id | id ∈ module.instructionsOf function ∧ ∃ memory, Names module id memory}

private theorem finite_contributors (module : Module) (function : ValueId) :
    (contributors module function).Finite :=
  (List.finite_toSet (module.instructionsOf function)).subset fun _ contributes => contributes.1

/-- The number of contributions that are in the graph already. -/
noncomputable def taken (module : Module) (function : ValueId) (escape : EscapeGraph) : Nat :=
  {id | id ∈ contributors module function ∧ transfer module escape id = escape}.ncard

private theorem taken_le (module : Module) (function : ValueId) (escape : EscapeGraph) :
    taken module function escape ≤ (contributors module function).ncard :=
  Set.ncard_le_ncard (fun _ known => known.1) (finite_contributors module function)

/-- Instructions whose contributions are all there already add nothing together. -/
theorem Parts.ofInstructions_eq_of_forall {fewer more : Set ValueId} (subset : fewer ⊆ more)
    (each : ∀ id ∈ more, ofInstructions module (insert id fewer) = ofInstructions module fewer) :
    ofInstructions module more = ofInstructions module fewer := by
  apply Parts.ext <;> apply Set.Subset.antisymm
  · intro other ⟨id, member, names⟩
    rw [← each id member]
    exact ⟨id, Set.mem_insert id fewer, names⟩
  · exact fun other ⟨id, member, names⟩ => ⟨id, subset member, names⟩
  · intro other ⟨id, member, stores⟩
    rw [← each id member]
    exact ⟨id, Set.mem_insert id fewer, stores⟩
  · exact fun other ⟨id, member, stores⟩ => ⟨id, subset member, stores⟩
  · intro id ⟨member, allocates⟩
    rw [← each id member]
    exact ⟨Set.mem_insert id fewer, allocates⟩
  · exact fun id ⟨member, allocates⟩ => ⟨subset member, allocates⟩
  · intro other ⟨id, member, returns⟩
    rw [← each id member]
    exact ⟨id, Set.mem_insert id fewer, returns⟩
  · exact fun other ⟨id, member, returns⟩ => ⟨id, subset member, returns⟩

/-- What adds nothing to some instructions adds nothing to more of them. -/
theorem Parts.ofInstructions_insert_of_subset {fewer more : Set ValueId} (subset : fewer ⊆ more)
    {id : ValueId} (same : ofInstructions module (insert id fewer) = ofInstructions module fewer) :
    ofInstructions module (insert id more) = ofInstructions module more := by
  have split : insert id more = insert id fewer ∪ more := by
    rw [Set.insert_union, Set.union_eq_self_of_subset_left subset]
  rw [split, ofInstructions_union, same, ← ofInstructions_union,
    Set.union_eq_self_of_subset_left subset]

/-- A graph that is made of more and is not the same has taken in more contributions. -/
theorem taken_lt {fewer more : Set ValueId} {a b : EscapeGraph}
    (holds : Holds module (.ofInstructions module fewer) a) (coherent : a.graph.Coherent)
    (more_holds : Holds module (.ofInstructions module more) b) (more_coherent : b.graph.Coherent)
    (subset : fewer ⊆ more) (inside : more ⊆ {id | id ∈ module.instructionsOf function})
    (different : a ≠ b) :
    taken module function a < taken module function b := by
  apply Set.ncard_lt_ncard
  · rw [Set.ssubset_iff_exists]
    constructor
    · rintro id ⟨contributes, same⟩
      rw [holds.transfer_eq_self_iff coherent] at same
      exact ⟨contributes, (more_holds.transfer_eq_self_iff more_coherent id).mpr
        (Parts.ofInstructions_insert_of_subset subset same)⟩
    · -- If the smaller graph had taken in all contributions, then the graphs would be the same.
      by_contra all_taken
      apply different
      have same : Parts.ofInstructions module more = Parts.ofInstructions module fewer := by
        apply Parts.ofInstructions_eq_of_forall subset
        intro id member
        by_cases contributes : ∃ memory, Names module id memory
        · rw [← holds.transfer_eq_self_iff coherent]
          by_contra changed
          apply all_taken
          refine ⟨id, ⟨⟨inside member, contributes⟩, ?_⟩, fun known => changed known.2⟩
          rw [more_holds.transfer_eq_self_iff more_coherent, Set.insert_eq_of_mem member]
        · rw [Parts.ofInstructions_insert, Parts.ofInstruction_silent (not_exists.mp contributes)]
          simp [Parts.union, Parts.empty]
      rw [same] at more_holds
      exact holds.unique more_holds coherent more_coherent
  · exact (finite_contributors module function).subset fun _ known => known.1

/-! ### Outcomes -/

/-- One visit of each instruction, and one more for each contribution and each edge behind a
loop. -/
noncomputable def sufficientVisits (module : Module) (flow : FlowGraph) : Nat :=
  flow.graph.nodeCount +
    (contributors module flow.function).ncard * flow.graph.edgesBehindLoops.ncard

/-- Facts of the analysis grow up to the number of contributing instructions. -/
theorem problem_grows (succeeded : FlowGraph.ofFunction module function = .ok flow) :
    ∃ invariant, (problem module flow).Grows invariant (taken module function)
      (contributors module function).ncard := by
  have coherent := (FlowGraph.ofFunction_spec succeeded).1.coherent
  have both := (problem_collects succeeded).and (problem_collects_coherent module flow)
  refine ⟨_, both.grows coherent ?_⟩
  rintro fewer more a b ⟨a_holds, a_coherent⟩ ⟨b_holds, b_coherent⟩ subset inside different
  refine ⟨taken_lt a_holds a_coherent b_holds b_coherent subset ?_ different,
    taken_le module function b⟩
  exact fun id member => (FlowGraph.mem_iff succeeded).mp (inside member)

section

variable (succeeded : FlowGraph.ofFunction module function = .ok flow)
include succeeded

private theorem solves_within {nodeLimit fuel : Nat}
    (enough : sufficientVisits module flow ≤ (problem module flow).budget nodeLimit fuel) :
    ∃ solution, (problem module flow).solve nodeLimit fuel = .ok solution := by
  obtain ⟨built, same_function, _⟩ := FlowGraph.ofFunction_spec succeeded
  obtain ⟨_, grows⟩ := problem_grows succeeded
  rw [sufficientVisits, same_function] at enough
  exact grows.solves built.coherent enough

private theorem summary_of_solves {solution : Problem.Solution EscapeGraph}
    (solved : (problem module flow).solve Problem.defaultNodeLimit 0 = .ok solution) :
    ∃ escape, summary module function = .ok escape := by
  obtain ⟨escape, together, _⟩ := exists_atExits succeeded solved
  exact ⟨escape, summary_eq_ok_iff.mpr ⟨flow, solution, succeeded, solved, together⟩⟩

private theorem summary_eq_error {stopped : Problem.DidNotConverge}
    (stops : (problem module flow).solve Problem.defaultNodeLimit 0 = .error stopped) :
    summary module function = .error (.didNotConverge stopped) := by
  simp [summary, succeeded, stops, bind, Except.bind, Except.mapError]

private theorem summary_outcome :
    (∃ escape, summary module function = .ok escape) ∨
      summary module function = .error (.didNotConverge
        { processed := (problem module flow).visitLimit Problem.defaultNodeLimit }) := by
  have coherent := (FlowGraph.ofFunction_spec succeeded).1.coherent
  rcases (problem module flow).solve_outcome coherent Problem.defaultNodeLimit 0
    with ⟨_, solved⟩ | stops
  · exact Or.inl (summary_of_solves succeeded solved)
  · exact Or.inr (summary_eq_error succeeded stops)

/-- There are fewer instructions in a function than keys. -/
theorem nodeCount_le (sound : module.Sound) (listed : function ∈ module.functions) :
    flow.graph.nodeCount ≤ Problem.maxCount := by
  have within : flow.graph.ids.toFinset ⊆ (Finset.range module.values.length).erase function := by
    intro id member
    rw [List.mem_toFinset, Graph.mem_ids] at member
    obtain ⟨instruction, found⟩ := sound.exists_instruction_of_mem listed succeeded member
    rw [Finset.mem_erase, Finset.mem_range]
    refine ⟨?_, sound.lt_of_mem listed succeeded member⟩
    -- The function itself is a value, but not an instruction.
    rintro rfl
    obtain ⟨info, is_function, _⟩ := sound.functions id listed
    have content := Module.content?_of_function? is_function
    rw [Module.content?_of_instruction? found] at content
    cases content
  have fewer := Finset.card_le_card within
  have distinct : flow.graph.ids.Nodup := Std.ExtTreeMap.nodup_keys
  rw [List.toFinset_card_of_nodup distinct, Finset.card_erase_of_mem
    (Finset.mem_range.mpr (sound.function_lt listed)), Finset.card_range] at fewer
  have counted := sound.counted
  have same : flow.graph.ids.length = flow.graph.nodeCount := Std.ExtTreeMap.length_keys
  rw [Problem.maxCount]
  omega

end

/-- The first instruction of a function. -/
def firstInstruction? (module : Module) (function : ValueId) : Option ValueId :=
  (module.function? function).bind fun info =>
    (info.entryBlock?.bind module.block?).bind BlockInfo.first?

private theorem exists_flow (sound : module.Sound) (listed : function ∈ module.functions)
    (starts : (firstInstruction? module function).isSome = true) :
    ∃ flow, FlowGraph.ofFunction module function = .ok flow := by
  rcases sound.ofFunction_outcome listed with declared | succeeded
  · obtain ⟨info, found, _⟩ := sound.functions function listed
    obtain ⟨entry, first⟩ := Option.isSome_iff_exists.mp starts
    simp only [firstInstruction?, found, Option.bind_some] at first
    rw [FlowGraph.ofFunction, found] at declared
    simp only [first] at declared
    split at declared <;> cases declared
  · exact succeeded

private theorem sufficientVisits_of_calm (calm : ∀ id, ¬ flow.graph.BehindLoop id) :
    sufficientVisits module flow = flow.graph.nodeCount := by
  have nothing : flow.graph.edgesBehindLoops = ∅ :=
    Set.eq_empty_iff_forall_notMem.mpr fun edge behind => calm edge.1 behind.2
  rw [sufficientVisits, nothing, Set.ncard_empty, Nat.mul_zero, Nat.add_zero]

end Escape

private theorem Graph.ncard_edgesBehindLoops_le {N E : Type} {graph : Graph N E}
    (coherent : graph.Coherent) :
    graph.edgesBehindLoops.ncard ≤ (graph.ids.flatMap graph.succIds).length :=
  coherent.ncard_edgesBehindLoops_le.trans coherent.ncard_joinedPairs_le

private theorem Escape.ncard_contributors_le {module : Module} {function : ValueId}
    {flow : FlowGraph} (succeeded : FlowGraph.ofFunction module function = .ok flow) :
    (contributors module function).ncard ≤ flow.graph.ids.length := by
  have listed : contributors module function ⊆ flow.graph.ids.toFinset := by
    intro id contributes
    simpa [Graph.mem_ids, FlowGraph.mem_iff succeeded] using contributes.1
  have fewer := Set.ncard_le_ncard listed
  rw [Set.ncard_coe_finset] at fewer
  exact fewer.trans (List.toFinset_card_le _)

/-- A function that makes some calls one after the other. When one of them unwinds, the call before
it is made again, and when the first one does, the function returns. -/
def Table.climbing (calls : Nat) : Table :=
  let block (place : Nat) : Key := .ofNat (100 + place)
  let call (place : Nat) : Key := .ofNat (200 + place)
  { types := [{ key := 1, ty := .pointer (.integer 8) 0 }, { key := 2, ty := .label },
    { key := 3, ty := .void }]
    values :=
      [{ key := 1, tag := .function, name := some "climb", ty := 1,
         payload := .function { blocks := 2 :: (List.range calls).map block ++ [4] } },
       { key := 2, tag := .basicBlock, ty := 2, payload := .block { instructions := [3] } },
       { key := 3, tag := .instruction .br, ty := 3,
         payload := .instruction { operands := [block 0] } },
       { key := 4, tag := .basicBlock, ty := 2, payload := .block { instructions := [5] } },
       { key := 5, tag := .instruction .ret, ty := 3, payload := .instruction {} }] ++
      (List.range calls).flatMap fun place =>
        let next := if place + 1 = calls then 4 else block (place + 1)
        let previous := if place = 0 then 4 else block (place - 1)
        [{ key := block place, tag := .basicBlock, ty := 2,
           payload := .block { instructions := [call place] } },
         { key := call place, tag := .instruction .invoke, ty := 1
           payload := .instruction { operands := [1, next, previous] } }]
    functions := [1] }

namespace Escape

/-- For every function with an instruction to start with, there is a summary, or the analysis gives
up after twenty visits for each instruction. There is a summary if the function has no loop, and
also if twenty visits for each instruction are enough for its contributions to go through its loops.
With a limit that leaves enough visits, or with none, the analysis does not give up on any
function. -/
theorem summary_within_limit (table : Table) (module : Module) (linked : table.link = .ok module)
    (function : ValueId) (listed : function ∈ module.functions)
    (starts : (firstInstruction? module function).isSome = true) :
    ∃ flow, FlowGraph.ofFunction module function = .ok flow ∧
      ((∃ escape, summary module function = .ok escape) ∨
        summary module function = .error (.didNotConverge
          { processed := min (20 * flow.graph.nodeCount) Problem.maxCount })) ∧
      ((∀ id, ¬ flow.graph.BehindLoop id) → ∃ escape, summary module function = .ok escape) ∧
      (sufficientVisits module flow ≤ min (20 * flow.graph.nodeCount) Problem.maxCount →
        ∃ escape, summary module function = .ok escape) ∧
      ∀ nodeLimit fuel, sufficientVisits module flow ≤ (problem module flow).budget nodeLimit fuel →
        ∃ solution, (problem module flow).solve nodeLimit fuel = .ok solution := by
  have sound := Table.sound_of_link linked
  obtain ⟨flow, succeeded⟩ := exists_flow sound listed starts
  have enough_visits : sufficientVisits module flow ≤
      min (20 * flow.graph.nodeCount) Problem.maxCount →
      ∃ escape, summary module function = .ok escape := by
    intro enough
    obtain ⟨solution, solved⟩ := @solves_within _ _ _ succeeded Problem.defaultNodeLimit 0 enough
    exact summary_of_solves succeeded solved
  refine ⟨flow, succeeded, summary_outcome succeeded, fun calm => enough_visits ?_, enough_visits,
    fun nodeLimit fuel => solves_within succeeded⟩
  rw [sufficientVisits_of_calm calm]
  exact Nat.le_min.mpr ⟨by omega, nodeCount_le succeeded sound listed⟩

/-- Three calls go back and forth, but they are few enough. -/
theorem climbing_within_limit : ∃ module flow escape, (Table.climbing 3).link = .ok module ∧
    0 ∈ module.functions ∧ (firstInstruction? module 0).isSome = true ∧
    FlowGraph.ofFunction module 0 = .ok flow ∧
    flow.graph.BehindLoop 4 ∧
    sufficientVisits module flow ≤ min (20 * flow.graph.nodeCount) Problem.maxCount ∧
    summary module 0 = .ok escape := by
  have run : ((Table.climbing 3).link.toOption.bind fun module =>
      (FlowGraph.ofFunction module 0).toOption.map fun flow =>
        (module.functions, (firstInstruction? module 0).isSome, flow.graph.ids,
          flow.graph.ids.map flow.graph.succIds)) =
      some ([0], true, [2, 4, 6, 8, 10], [[4], [6, 10], [4, 8], [6, 10], []]) := by
    decide +kernel
  obtain ⟨module, linked, run⟩ := exists_ok_of_toOption_bind run
  obtain ⟨flow, succeeded, run⟩ := exists_ok_of_toOption_map run
  simp only [Prod.mk.injEq] at run
  obtain ⟨functions, starts, ids, successors⟩ := run
  have listed : 0 ∈ module.functions := by simp [functions]
  obtain ⟨other, also_succeeded, _, _, enough_visits, _⟩ :=
    summary_within_limit (Table.climbing 3) module linked 0 listed starts
  obtain rfl := Except.ok.inj (succeeded.symm.trans also_succeeded)
  obtain ⟨built, same_function, _⟩ := FlowGraph.ofFunction_spec succeeded
  simp only [ids, List.map_cons, List.map_nil, List.cons.injEq] at successors
  obtain ⟨entry, first, second, third, last, _⟩ := successors
  have count : flow.graph.ids.length = flow.graph.nodeCount := Std.ExtTreeMap.length_keys
  have edges := Graph.ncard_edgesBehindLoops_le built.coherent
  have contributions := ncard_contributors_le succeeded
  simp only [ids, List.flatMap_cons, entry, first, second, third, last, List.flatMap_nil,
    List.append_nil, List.cons_append, List.nil_append, List.length_cons,
    List.length_nil] at count edges contributions
  have enough : sufficientVisits module flow ≤
      min (20 * flow.graph.nodeCount) Problem.maxCount := by
    have product := Nat.mul_le_mul contributions edges
    rw [sufficientVisits, same_function, ← count]
    exact (Nat.add_le_add_left product 5).trans (by decide)
  obtain ⟨escape, analysed⟩ := enough_visits enough
  refine ⟨module, flow, escape, linked, listed, starts, succeeded, ?_, enough, analysed⟩
  -- From the first call to the second one and back.
  have onwards : flow.graph.HasEdge 4 6 := built.coherent.mem_succIds.mp (by simp [first])
  have back : flow.graph.HasEdge 6 4 := built.coherent.mem_succIds.mp (by simp [second])
  exact Graph.behindLoop_of_reaches_back onwards (Graph.reaches_of_hasEdge built.coherent back)

/-! ### Too many calls -/

instance (id : ValueId) : Decidable (Allocates module id) :=
  decidable_of_iff (module.isPointer id = true ∧
    (module.instruction? id matches some (.call _) ∨
      module.instruction? id matches some (.invoke _ _ _))) <| by
    rw [Allocates]
    cases module.instruction? id with
    | none => simp
    | some instruction => cases instruction <;> simp

private theorem mem_transfer_of_allocates {id : ValueId} (allocates : Allocates module id)
    (before : EscapeGraph) {memory : ValueId} :
    memory ∈ (transfer module before id).graph ↔ memory = id ∨ memory ∈ before.graph := by
  obtain ⟨pointer, ⟨site, found⟩ | ⟨site, normalBlock, unwindBlock, found⟩⟩ := allocates
  all_goals simp [transfer, transfer.allocated, found, pointer, EscapeGraph.addCallSite,
    EscapeGraph.mem_addMemory]

/-- If all contributions are made by calls, then the calls are the rungs of a ladder in which each
one goes back to the one before it. -/
theorem ladder_of_calls (succeeded : FlowGraph.ofFunction module function = .ok flow)
    {calls : List ValueId} (allocate : ∀ id ∈ calls, id ∈ flow.graph ∧ Allocates module id)
    (others : ∀ id ∈ flow.graph, id ∉ calls → ∀ before, transfer module before id = before)
    (upwards : calls.Pairwise fun lower upper => (Worklist.flowOrder .forward flow.graph).idxOf
      lower < (Worklist.flowOrder .forward flow.graph).idxOf upper)
    (downwards : calls.IsChain fun lower upper => flow.graph.HasEdge upper lower) :
    (problem module flow).Ladder calls fun fact id => id ∈ fact.graph where
  collects :=
    { initial := fun id _ => by simp [problem, EscapeGraph.empty, Graph.not_mem_empty id]
      top := fun id _ => by simp [problem, EscapeGraph.domain, EscapeGraph.empty,
        Graph.not_mem_empty id]
      meet := fun left right id listed => by
        rw [Set.mem_union, ← left id listed, ← right id listed]
        exact mem_meet _ _
      transfer := by
        intro nodes fact id label labelled made call listed
        obtain ⟨rfl, _⟩ := (FlowGraph.label?_eq_some_iff succeeded).mp labelled
        rw [Set.mem_insert_iff, ← made call listed]
        by_cases here : label ∈ calls
        · exact mem_transfer_of_allocates (allocate label here).2 fact
        · -- Another instruction is no call, and it adds nothing.
          have different : call ≠ label := fun same => here (same ▸ listed)
          have member := Graph.mem_iff_label?.mpr ⟨_, labelled⟩
          simp [problem, others label member here, different]
      sUnion := by
        intro sets fact nonempty each call listed
        obtain ⟨nodes, member⟩ := nonempty
        constructor
        · exact fun carried => ⟨nodes, member, (each nodes member call listed).mp carried⟩
        · rintro ⟨other, other_mem, contributed⟩
          exact (each other other_mem call listed).mpr contributed }
  nodes := fun id listed => (allocate id listed).1
  upwards := upwards
  downwards := downwards.imp fun _ _ edge =>
    (Direction.feeds_forward_iff (FlowGraph.ofFunction_spec succeeded).1.coherent).mpr edge

/-- Branches and returns without a value. -/
def isPlain (module : Module) (id : ValueId) : Bool :=
  match module.instruction? id with
  | some (.br _) | some (.ret none) => true
  | _ => false

private theorem transfer_of_isPlain {id : ValueId} (plain : isPlain module id)
    (before : EscapeGraph) :
    transfer module before id = before := by
  unfold isPlain at plain
  split at plain
  next found => simp [transfer, found]
  next found => simp [transfer, found]
  next => cases plain

/-- The numbers that linking gives to the calls. -/
def climbingCalls (calls : Nat) : List ValueId := (List.range calls).map (2 * · + 4)

/-- Forty-one calls take more visits than twenty for each of the forty-three instructions. -/
theorem climbing_gives_up : ∃ module, (Table.climbing 41).link = .ok module ∧ 0 ∈ module.functions ∧
    (firstInstruction? module 0).isSome = true ∧
    summary module 0 = .error (.didNotConverge { processed := 860 }) := by
  have run : ((Table.climbing 41).link.toOption.bind fun module =>
      (FlowGraph.ofFunction module 0).toOption.map fun flow =>
        (module.functions, (firstInstruction? module 0).isSome, flow.graph.ids,
          Worklist.flowOrder .forward flow.graph,
          (climbingCalls 41).all (Allocates module ·) && isPlain module 2 && isPlain module 86 &&
            decide ((climbingCalls 41).IsChain fun lower upper =>
              lower ∈ flow.graph.succIds upper))) =
      some ([0], true, (List.range 43).map (2 * · + 2), (List.range 43).map (2 * · + 2), true) := by
    decide +kernel
  obtain ⟨module, linked, run⟩ := exists_ok_of_toOption_bind run
  obtain ⟨flow, succeeded, run⟩ := exists_ok_of_toOption_map run
  simp only [Prod.mk.injEq, Bool.and_eq_true, decide_eq_true_eq, List.all_eq_true] at run
  obtain ⟨functions, starts, ids, order, ⟨⟨allocate, branches⟩, leaves⟩, back⟩ := run
  have coherent := (FlowGraph.ofFunction_spec succeeded).1.coherent
  have member : ∀ id, id ∈ flow.graph ↔ id ∈ (List.range 43).map (2 * · + 2) := fun id => by
    rw [← ids, Graph.mem_ids]
  have ladder : (problem module flow).Ladder (climbingCalls 41) fun fact id => id ∈ fact.graph := by
    apply ladder_of_calls succeeded
    case allocate =>
      intro id listed
      have inside : ∀ id ∈ climbingCalls 41, id ∈ (List.range 43).map (2 * · + 2) := by decide
      exact ⟨(member id).mpr (inside id listed), allocate id listed⟩
    case others =>
      intro id inside outside before
      have ends : ∀ id ∈ (List.range 43).map (2 * · + 2), id ∉ climbingCalls 41 →
          id = 2 ∨ id = 86 := by
        decide
      rcases ends id ((member id).mp inside) outside with rfl | rfl
      · exact transfer_of_isPlain branches before
      · exact transfer_of_isPlain leaves before
    case upwards =>
      rw [order]
      decide +kernel
    case downwards => exact back.imp fun _ _ successor => coherent.mem_succIds.mp successor
  have budget : (problem module flow).budget Problem.defaultNodeLimit 0 = 860 := by
    have count : flow.graph.ids.length = flow.graph.nodeCount := Std.ExtTreeMap.length_keys
    rw [ids] at count
    change min (20 * flow.graph.nodeCount) Problem.maxCount = 860
    rw [← count]
    decide
  have stops := @Problem.Ladder.solve_eq_error _ _ _ _ _ _ _ ladder coherent
    Problem.defaultNodeLimit 0
  rw [budget] at stops
  exact ⟨module, linked, by simp [functions], starts,
    summary_eq_error succeeded (stops (by decide))⟩

end Escape

end FlowIR
