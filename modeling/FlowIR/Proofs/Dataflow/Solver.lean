import FlowIR.Dataflow.Problem
import FlowIR.Proofs.Graph.Coherence

/-!
# Runs of the solver

Whatever the transfer is, a run keeps one fact for each node of the graph, and the equation of a
node holds unless the node is queued: a visit makes the equation hold at the visited node, and it
can only break the equations of the nodes that depend on it, which are queued again. So all
equations hold when nothing is queued any more, in whatever order the nodes were handed out.
-/
namespace FlowIR

variable {N E D : Type}

/-! ### Where facts come from -/

namespace Direction

/-- Facts flow from the first node to the second one. -/
def Feeds (direction : Direction) (graph : Graph N E) (source target : Nat) : Prop :=
  ∃ label, (source, label) ∈ direction.incoming graph target

variable {graph : Graph N E}

theorem feeds_forward_iff (coherent : graph.Coherent) {source target : Nat} :
    forward.Feeds graph source target ↔ graph.HasEdge source target := by
  simp only [Feeds, incoming, Graph.predecessors, Graph.mem_adjacency_edges, Graph.HasEdge,
    Graph.edgeLabels, coherent.mirrored]

theorem feeds_backward_iff {source target : Nat} :
    backward.Feeds graph source target ↔ graph.HasEdge target source := by
  simp only [Feeds, incoming, Graph.mem_successors, Graph.HasEdge]

theorem mem_dependents_iff (coherent : graph.Coherent) (direction : Direction)
    {source target : Nat} :
    target ∈ direction.dependents graph source ↔ direction.Feeds graph source target := by
  cases direction with
  | forward => rw [feeds_forward_iff coherent, dependents, coherent.mem_succIds]
  | backward => rw [feeds_backward_iff, dependents, coherent.mem_predIds]

/-- Facts only flow between nodes of the graph. -/
theorem Feeds.source_mem (coherent : graph.Coherent) {direction : Direction} {source target : Nat}
    (feeds : direction.Feeds graph source target) : source ∈ graph := by
  cases direction with
  | forward => exact ((feeds_forward_iff coherent).mp feeds).source_mem
  | backward => exact coherent.target_mem (feeds_backward_iff.mp feeds)

end Direction

/-! ### Worklists -/

namespace Worklist

theorem mem_pushAll {worklist : Worklist} {ids : List Nat} {id : Nat} :
    id ∈ (worklist.pushAll ids).queued ↔ id ∈ ids ∨ id ∈ worklist.queued := by
  induction ids generalizing worklist with
  | nil => simp [pushAll]
  | cons first rest ih =>
    change id ∈ ((worklist.push first).pushAll rest).queued ↔ _
    rw [ih, push, Std.ExtTreeSet.mem_insert, Nat.compare_eq_eq, List.mem_cons, @eq_comm _ first,
      ← or_assoc, or_comm (a := id ∈ rest)]

theorem not_mem_of_isEmpty {worklist : Worklist} (empty : worklist.isEmpty = true) (id : Nat) :
    id ∉ worklist.queued := by
  rw [isEmpty, Std.ExtTreeSet.isEmpty_iff] at empty
  rw [empty]
  exact Std.ExtTreeSet.not_mem_empty

/-- What is handed out was queued and is not queued any more. -/
theorem pop?_spec {worklist rest : Worklist} {id : Nat} (popped : worklist.pop? = some (id, rest)) :
    id ∈ worklist.queued ∧ ∀ other, other ∈ rest.queued ↔ other ≠ id ∧ other ∈ worklist.queued := by
  obtain ⟨found, first, same⟩ := Option.map_eq_some_iff.mp popped
  obtain ⟨rfl, rfl⟩ := Prod.mk.inj same
  constructor
  · rw [first?] at first
    -- A queued node with a rank is found in the order. Without one the least number is taken.
    cases search : worklist.order.find? (· ∈ worklist.queued) with
    | none =>
      rw [search] at first
      exact Std.ExtTreeSet.min?_mem first
    | some ranked =>
      rw [search] at first
      have queued := List.find?_some search
      obtain rfl : ranked = found := Option.some.inj first
      simpa using queued
  · intro other
    rw [erase, Std.ExtTreeSet.mem_erase, ne_eq, Nat.compare_eq_eq]
    exact and_congr_left fun _ => not_congr eq_comm

theorem pop?_eq_none {worklist : Worklist} (empty : worklist.isEmpty = true) :
    worklist.pop? = none := by
  have unranked : worklist.order.find? (· ∈ worklist.queued) = none := by
    rw [List.find?_eq_none]
    intro id _
    simpa using not_mem_of_isEmpty empty id
  rw [isEmpty, Std.ExtTreeSet.isEmpty_iff] at empty
  rw [pop?, first?, unranked, empty]
  simp

end Worklist

/-! ### The equations -/

namespace Problem

/-- What flows into a node when these are the facts after all nodes. -/
def inputOf (problem : Problem N E D) (facts : Nat → D) (id : Nat) : D :=
  match problem.direction.incoming problem.graph id with
  | [] => problem.initial
  | edges => problem.domain.meetAll (edges.map fun (other, _) => facts other)

/-- The fact after each node is the transfer of what flows into it. -/
def IsSolution (problem : Problem N E D) (facts : Nat → D) : Prop :=
  ∀ id label, problem.graph.label? id = some label →
    facts id = problem.transfer (problem.inputOf facts id) id label
      (problem.direction.incoming problem.graph id)

/-- The facts of a run as a function. -/
def factsOf (problem : Problem N E D) (outputs : Std.ExtTreeMap Nat D) (id : Nat) : D :=
  outputs.getD id problem.initial

variable {problem : Problem N E D} {outputs : Std.ExtTreeMap Nat D}

private theorem input_eq_inputOf (problem : Problem N E D) (outputs : Std.ExtTreeMap Nat D)
    (id : Nat) :
    problem.input outputs id = problem.inputOf (problem.factsOf outputs) id := rfl

theorem factsOf_start (problem : Problem N E D) (id : Nat) :
    problem.factsOf problem.start.outputs id = problem.initial := by
  rw [factsOf, start, Std.ExtTreeMap.getD_eq_getD_getElem?, Std.ExtTreeMap.getElem?_map]
  cases problem.graph.entries[id]? <;> rfl

theorem factsOf_insert (problem : Problem N E D) (outputs : Std.ExtTreeMap Nat D) (id other : Nat)
    (fact : D) : problem.factsOf (outputs.insert id fact) other =
      if id = other then fact else problem.factsOf outputs other := by
  simp [factsOf, Std.ExtTreeMap.getD_insert]

theorem getElem?_eq_factsOf (problem : Problem N E D) {id : Nat} (recorded : id ∈ outputs) :
    outputs[id]? = some (problem.factsOf outputs id) := by
  rw [factsOf, Std.ExtTreeMap.getD_eq_getD_getElem?]
  obtain ⟨fact, found⟩ :=
    Option.isSome_iff_exists.mp (Std.ExtTreeMap.mem_iff_isSome_getElem?.mp recorded)
  rw [found, Option.getD_some]

/-- Only facts that flow into a node matter to it. -/
theorem inputOf_congr {left right : Nat → D} {id : Nat}
    (agree : ∀ other, problem.direction.Feeds problem.graph other id → left other = right other) :
    problem.inputOf left id = problem.inputOf right id := by
  cases edges : problem.direction.incoming problem.graph id with
  | nil => simp [inputOf, edges]
  | cons first rest =>
    have same : (first :: rest).map (fun (other, _) => left other) =
        (first :: rest).map fun (other, _) => right other := by
      apply List.map_congr_left
      rintro ⟨other, label⟩ member
      exact agree other ⟨label, edges ▸ member⟩
    simp only [inputOf, edges, same]

/-! ### What every visit keeps -/

/-- Every node has a fact, and its equation holds unless it is queued. -/
structure Consistent (problem : Problem N E D) (run : Run D) : Prop where
  same_nodes : ∀ id, id ∈ run.outputs ↔ id ∈ problem.graph
  solved : ∀ id label, problem.graph.label? id = some label → id ∉ run.worklist.queued →
    problem.factsOf run.outputs id = problem.visitOutput run.outputs id label

theorem consistent_start (problem : Problem N E D) : problem.Consistent problem.start where
  same_nodes := fun id => Std.ExtTreeMap.mem_map
  solved := by
    -- At first every node is queued.
    intro id label labelled not_queued
    refine absurd (Worklist.mem_pushAll.mpr (Or.inl ?_)) not_queued
    exact Graph.mem_ids.mpr (Graph.mem_iff_label?.mpr ⟨_, labelled⟩)

variable [DecidableEq D]

/-- A visit keeps all facts where the equation of the node holds already. Otherwise it writes the
fact that makes it hold, and queues the nodes that depend on it. -/
theorem visit_cases (problem : Problem N E D) (run : Run D) (id : Nat) (rest : Worklist) :
    ((problem.visit run id rest).outputs = run.outputs ∧
      (problem.visit run id rest).worklist = rest ∧
      ∀ label, problem.graph.label? id = some label →
        run.outputs[id]? = some (problem.visitOutput run.outputs id label)) ∨
    ∃ label, problem.graph.label? id = some label ∧
      (problem.visit run id rest).outputs =
        run.outputs.insert id (problem.visitOutput run.outputs id label) ∧
      (problem.visit run id rest).worklist =
        rest.pushAll (problem.direction.dependents problem.graph id) := by
  cases labelled : problem.graph.label? id with
  | none => exact Or.inl ⟨by simp [visit, labelled], by simp [visit, labelled], by simp⟩
  | some label =>
    by_cases unchanged : run.outputs[id]? = some (problem.visitOutput run.outputs id label)
    · exact Or.inl ⟨by simp [visit, labelled, unchanged], by simp [visit, labelled, unchanged],
        fun _ same => Option.some.inj same ▸ unchanged⟩
    · exact Or.inr ⟨label, rfl, by simp [visit, labelled, unchanged],
        by simp [visit, labelled, unchanged]⟩

theorem Consistent.visit (coherent : problem.graph.Coherent) {run : Run D} {id : Nat}
    {rest : Worklist} (consistent : problem.Consistent run)
    (popped : run.worklist.pop? = some (id, rest)) :
    problem.Consistent (problem.visit run id rest) := by
  obtain ⟨_, queued⟩ := Worklist.pop?_spec popped
  rcases problem.visit_cases run id rest with
    ⟨outputs, worklist, unchanged⟩ | ⟨label, labelled, outputs, worklist⟩
  · constructor
    · rw [outputs]
      exact consistent.same_nodes
    · intro other other_label other_labelled not_queued
      rw [worklist, queued, not_and] at not_queued
      rw [outputs]
      -- Only the visited node left the queue, and its equation held before the visit.
      by_cases here : other = id
      · subst here
        rw [factsOf, Std.ExtTreeMap.getD_eq_getD_getElem?, unchanged other_label other_labelled,
          Option.getD_some]
      · exact consistent.solved other other_label other_labelled (not_queued here)
  · constructor
    · intro other
      have member : id ∈ run.outputs :=
        (consistent.same_nodes id).mpr (Graph.mem_iff_label?.mpr ⟨_, labelled⟩)
      rw [outputs, Std.ExtTreeMap.mem_insert, Nat.compare_eq_eq, ← consistent.same_nodes]
      exact ⟨fun known => known.elim (fun same => same ▸ member) fun old => old, Or.inr⟩
    · intro other other_label other_labelled not_queued
      rw [worklist, Worklist.mem_pushAll, not_or, Direction.mem_dependents_iff coherent, queued,
        not_and] at not_queued
      -- Nothing flows from the visited node into a node that is not queued, so its input is the
      -- same.
      have same_input : problem.inputOf (problem.factsOf (run.outputs.insert id
          (problem.visitOutput run.outputs id label))) other =
            problem.inputOf (problem.factsOf run.outputs) other := by
        apply inputOf_congr
        intro source feeds
        rw [factsOf_insert, if_neg]
        rintro rfl
        exact not_queued.1 feeds
      have same_output : problem.visitOutput (run.outputs.insert id
          (problem.visitOutput run.outputs id label)) other other_label =
            problem.visitOutput run.outputs other other_label := by
        rw [visitOutput, input_eq_inputOf, same_input]
        rfl
      rw [outputs, same_output, factsOf_insert]
      by_cases here : id = other
      · -- The visited node does not feed itself, or it would be queued again.
        subst here
        obtain rfl : label = other_label := Option.some.inj (labelled.symm.trans other_labelled)
        rw [if_pos rfl]
      · rw [if_neg here]
        exact consistent.solved other other_label other_labelled (not_queued.2 (Ne.symm here))

/-! ### Whole runs -/

/-- What every visit keeps holds at the end of a run if it holds at its start. -/
theorem runFrom_keeps (property : Run D → Prop)
    (keeps : ∀ run id rest, property run → run.worklist.pop? = some (id, rest) →
      property (problem.visit run id rest))
    (budget : Nat) {run : Run D} (holds : property run) :
    property (problem.runFrom budget run) := by
  induction budget generalizing run with
  | zero => exact holds
  | succ budget ih =>
    rw [runFrom]
    split
    · exact holds
    next id rest popped => exact ih (keeps run id rest holds popped)

/-- Visits that are permitted beyond those after which nothing is queued are not made. -/
theorem runFrom_of_settled {used budget : Nat} {run : Run D}
    (settled : (problem.runFrom used run).worklist.isEmpty = true) (permitted : used ≤ budget) :
    problem.runFrom budget run = problem.runFrom used run := by
  induction used generalizing run budget with
  | zero =>
    cases budget with
    | zero => rfl
    | succ budget =>
      have nothing : run.worklist.pop? = none := Worklist.pop?_eq_none settled
      simp [runFrom, nothing]
  | succ used ih =>
    obtain ⟨budget, rfl⟩ := Nat.exists_eq_add_of_le' permitted
    rw [← Nat.add_assoc, runFrom, runFrom]
    rw [runFrom] at settled
    split
    · rfl
    next id rest popped =>
      rw [popped] at settled
      exact ih settled (Nat.le_add_left used budget)

theorem consistent_run (coherent : problem.graph.Coherent) (nodeLimit fuel : Nat) :
    problem.Consistent (problem.run nodeLimit fuel) :=
  runFrom_keeps problem.Consistent (fun _ _ _ consistent popped => consistent.visit coherent popped)
    _ problem.consistent_start

/-- A run gives its facts as the solution when nothing is queued any more, and only then. -/
theorem solve_eq_ok_iff {nodeLimit fuel : Nat} {solution : Solution D} :
    problem.solve nodeLimit fuel = .ok solution ↔
      (problem.run nodeLimit fuel).worklist.isEmpty = true ∧
        (problem.run nodeLimit fuel).outputs = solution.outputs := by
  rw [solve, Run.solution]
  split
  next empty =>
    simp only [empty, true_and, Except.ok.injEq]
    exact ⟨fun same => same ▸ rfl, fun same => by cases solution; simp_all⟩
  next queued => simp [queued]

/-- A run that settles before it has used up its visits gives the solution. -/
theorem solve_of_settled {nodeLimit fuel used : Nat}
    (settled : (problem.runFrom used problem.start).worklist.isEmpty = true)
    (permitted : used ≤ problem.budget nodeLimit fuel) :
    problem.solve nodeLimit fuel =
      .ok { outputs := (problem.runFrom used problem.start).outputs } := by
  rw [solve_eq_ok_iff, run, runFrom_of_settled settled permitted]
  exact ⟨settled, rfl⟩

theorem solve_isSolution (coherent : problem.graph.Coherent) {nodeLimit fuel : Nat}
    {solution : Solution D} (solved : problem.solve nodeLimit fuel = .ok solution) :
    problem.IsSolution (problem.factsOf solution.outputs) := by
  obtain ⟨empty, outputs⟩ := solve_eq_ok_iff.mp solved
  intro id label labelled
  rw [← outputs]
  exact (problem.consistent_run coherent nodeLimit fuel).solved id label labelled
    (Worklist.not_mem_of_isEmpty empty id)

theorem mem_outputs_of_solve (coherent : problem.graph.Coherent) {nodeLimit fuel : Nat}
    {solution : Solution D} (solved : problem.solve nodeLimit fuel = .ok solution) (id : Nat) :
    id ∈ solution.outputs ↔ id ∈ problem.graph := by
  rw [← (solve_eq_ok_iff.mp solved).2]
  exact (problem.consistent_run coherent nodeLimit fuel).same_nodes id

/-- The fact after each node is the transfer of what flows into it. -/
theorem getElem?_of_solve (coherent : problem.graph.Coherent) {nodeLimit fuel : Nat}
    {solution : Solution D} (solved : problem.solve nodeLimit fuel = .ok solution) {id : Nat}
    {label : N} (labelled : problem.graph.label? id = some label) :
    solution.outputs[id]? = some (problem.transfer (problem.input solution.outputs id) id label
      (problem.direction.incoming problem.graph id)) := by
  have member : id ∈ solution.outputs :=
    (mem_outputs_of_solve coherent solved id).mpr (Graph.mem_iff_label?.mpr ⟨label, labelled⟩)
  rw [getElem?_eq_factsOf problem member]
  exact congrArg some (solve_isSolution coherent solved id label labelled)

/-- Neither laws of the meet nor monotone transfers are needed: a run that settles holds a fact for
exactly the nodes of the graph. No fact that flows into a node is missing, and the fact after each
node is the transfer of what flows into it. -/
theorem solve_fixpoint (problem : Problem N E D) (built : problem.graph.Built)
    (nodeLimit fuel : Nat) (result : Solution D)
    (solved : problem.solve nodeLimit fuel = .ok result) :
    (∀ id, id ∈ result.outputs ↔ id ∈ problem.graph) ∧
      ∀ id label, problem.graph.label? id = some label →
        (∀ edge ∈ problem.direction.incoming problem.graph id, edge.1 ∈ result.outputs) ∧
        result.outputs[id]? = some (problem.transfer (problem.input result.outputs id) id label
          (problem.direction.incoming problem.graph id)) := by
  have coherent := built.coherent
  have same_nodes := mem_outputs_of_solve coherent solved
  refine ⟨same_nodes, fun id label labelled => ⟨?_, getElem?_of_solve coherent solved labelled⟩⟩
  intro edge listed
  have feeds : problem.direction.Feeds problem.graph edge.1 id := ⟨edge.2, listed⟩
  exact (same_nodes edge.1).mpr (feeds.source_mem coherent)

/-- Facts flow against the edges. They are added up, so that parallel edges count twice, and the
second node turns them around. The third node feeds itself. -/
def counting : Problem Unit Nat Nat :=
  { graph := ((((((∅ : Graph Unit Nat).insertNode 0 ()).insertNode 1 ()).insertNode 2 ()).addEdge
      0 1 10).addEdge 0 1 20).addEdge 1 2 30 |>.addEdge 2 2 40
    direction := .backward
    domain := { top := 0, meet := (· + ·) }
    initial := 7
    transfer := fun before id _ edges =>
      if id = 0 then before + edges.length else if id = 1 then 5 - before else min before 3 }

/-- The meet is not idempotent and a transfer is not monotone, and still the run settles on a
fixpoint. -/
theorem counting_fixpoint :
    counting.graph.Built ∧ ¬ counting.domain.meet 1 1 = 1 ∧
      ∃ result, counting.solve 2 0 = .ok result ∧
        result.outputs.toList = [(0, 6), (1, 2), (2, 3)] ∧
        result.outputs[0]? = some (counting.transfer (counting.input result.outputs 0) 0 ()
          (counting.direction.incoming counting.graph 0)) := by
  have built : counting.graph.Built := by
    have empty : (∅ : Graph Unit Nat).Built := .empty
    have nodes := ((empty.insertNode 0 ()).insertNode 1 ()).insertNode 2 ()
    have parallel := (nodes.addEdge 0 1 10 (by decide) (by decide)).addEdge 0 1 20
      (by decide) (by decide)
    exact (parallel.addEdge 1 2 30 (by decide) (by decide)).addEdge 2 2 40 (by decide) (by decide)
  -- Four visits are enough, and six are permitted.
  have solved : counting.solve 2 0 =
      .ok { outputs := (counting.runFrom 4 counting.start).outputs } :=
    solve_of_settled (by decide +kernel) (by decide +kernel)
  have fixpoint := solve_fixpoint counting built 2 0 _ solved
  exact ⟨built, by decide, _, solved, by decide +kernel, (fixpoint.2 0 () (by decide +kernel)).2⟩

end Problem

end FlowIR
