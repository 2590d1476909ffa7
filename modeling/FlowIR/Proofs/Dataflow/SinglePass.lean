import FlowIR.Proofs.Dataflow.Revisits
import FlowIR.Proofs.Graph.Cycles
import FlowIR.Proofs.Graph.Listing

/-!
# Runs without loops

Without loops, the reverse postorder puts every node after all nodes from which facts flow to it. So
at any time the nodes of some beginning of this order have been visited, and exactly the others are
queued: the first of them is handed out next, and whatever its visit queues is queued already. A run
is one pass over the order, whatever the transfer is, and one visit for each node is enough. Each
visit applies the transfer at its node and keeps what comes out, so the facts are those of applying
it to the nodes one after the other.
-/
namespace FlowIR

variable {N E D : Type}

namespace Graph

variable {graph : Graph N E}

private theorem length_ids (graph : Graph N E) : graph.ids.length = graph.nodeCount :=
  Std.ExtTreeMap.length_keys

/-- There are no more nodes than numbers below a bound of them. -/
theorem nodeCount_le_of_lt {bound : Nat} (small : ∀ id ∈ graph, id < bound) :
    graph.nodeCount ≤ bound := by
  have within : graph.ids ⊆ List.range bound :=
    fun id listed => List.mem_range.mpr (small id (mem_ids.mp listed))
  have fewer := (List.subperm_of_subset graph.nodup_ids within).length_le
  rwa [length_ids, List.length_range] at fewer

end Graph

/-! ### The order of nodes -/

private theorem Direction.acyclic_orient {graph : Graph N E} (coherent : graph.Coherent)
    (acyclic : graph.Acyclic) (direction : Direction) : (direction.orient graph).Acyclic := by
  cases direction with
  | forward => exact acyclic
  | backward => exact acyclic.reverse coherent

namespace Worklist

variable {graph : Graph N E} {direction : Direction} {id source target : Nat}

private theorem mem_flowOrder_iff (coherent : graph.Coherent) (direction : Direction) :
    id ∈ flowOrder direction graph ↔ id ∈ graph := by
  refine ⟨fun listed => ?_, mem_flowOrder coherent direction⟩
  rw [flowOrder, List.mem_reverse,
    Graph.mem_postorder (Direction.coherent_orient coherent direction)] at listed
  obtain ⟨_, _, _, walk⟩ := listed
  exact Direction.mem_orient.mp walk.last_mem_graph

private theorem flowOrder_perm_ids (coherent : graph.Coherent) (direction : Direction) :
    (flowOrder direction graph).Perm graph.ids := by
  rw [List.perm_ext_iff_of_nodup (nodup_flowOrder direction graph) graph.nodup_ids]
  intro id
  rw [mem_flowOrder_iff coherent, Graph.mem_ids]

variable (coherent : graph.Coherent) (acyclic : graph.Acyclic)
include coherent acyclic

private theorem not_feeds_self (id : Nat) : ¬ direction.Feeds graph id id := by
  intro feeds
  exact Direction.acyclic_orient coherent acyclic direction id
    (.single ((Direction.feeds_iff coherent).mp feeds))

/-- No facts flow to an earlier node, since they would flow around a loop. -/
theorem pairwise_not_feeds (direction : Direction) :
    (flowOrder direction graph).Pairwise fun id later => ¬ direction.Feeds graph later id := by
  refine (leadsBack_flowOrder coherent direction).imp fun leads_back feeds => ?_
  have edge := (Direction.feeds_iff coherent).mp feeds
  exact (Direction.acyclic_orient coherent acyclic direction).not_reaches_back
    (Direction.coherent_orient coherent direction) edge (leads_back edge)

private theorem idxOf_lt_of_feeds (feeds : direction.Feeds graph source target) :
    (flowOrder direction graph).idxOf source < (flowOrder direction graph).idxOf target := by
  have source_listed := mem_flowOrder coherent direction (feeds.source_mem coherent)
  have target_listed := mem_flowOrder coherent direction (feeds.target_mem coherent)
  -- Otherwise the facts would flow to an earlier node, or to the node itself.
  by_contra not_before
  rcases Nat.lt_or_eq_of_le (Nat.le_of_not_lt not_before) with before | same
  · have backwards := List.pairwise_iff_getElem.mp
      (pairwise_not_feeds coherent acyclic direction) _ _
      (List.idxOf_lt_length_of_mem target_listed) (List.idxOf_lt_length_of_mem source_listed) before
    rw [List.getElem_idxOf, List.getElem_idxOf] at backwards
    exact backwards feeds
  · obtain rfl := (List.idxOf_inj target_listed).mp same
    exact not_feeds_self coherent acyclic _ feeds

private theorem idxOf_lt_of_transGen_feeds
    (flows : Relation.TransGen (direction.Feeds graph) source target) :
    (flowOrder direction graph).idxOf source < (flowOrder direction graph).idxOf target := by
  induction flows with
  | single feeds => exact idxOf_lt_of_feeds coherent acyclic feeds
  | tail _ feeds ih => exact ih.trans (idxOf_lt_of_feeds coherent acyclic feeds)

end Worklist

namespace Problem

variable {problem : Problem N E D}

/-! ### One pass -/

/-- The facts after the transfer has been applied at one node. -/
def applyAt (problem : Problem N E D) (outputs : Std.ExtTreeMap Nat D)
    (id : Nat) : Std.ExtTreeMap Nat D :=
  match problem.graph.label? id with
  | none => outputs
  | some label =>
    outputs.insert id (problem.transfer (problem.input outputs id) id label
      (problem.direction.incoming problem.graph id))

/-- Whether a visit changes the fact of its node or finds that it stays the same, it applies the
transfer there. -/
theorem outputs_visit [DecidableEq D] (problem : Problem N E D) (run : Run D) (id : Nat)
    (rest : Worklist) :
    (problem.visit run id rest).outputs = problem.applyAt run.outputs id := by
  rcases problem.visit_cases run id rest with ⟨kept, _, unchanged⟩ | ⟨label, labelled, written, _⟩
  · rw [kept, applyAt]
    cases labelled : problem.graph.label? id with
    | none => rfl
    | some label =>
      apply Std.ExtTreeMap.ext_getElem?
      intro other
      rw [Std.ExtTreeMap.getElem?_insert]
      split
      next here => rw [← Nat.compare_eq_eq.mp here, unchanged label labelled, visitOutput]
      next => rfl
  · rw [written, applyAt, labelled, visitOutput]

/-- The nodes that are done were visited in the flow order, where the transfer was applied once at
each of them, and exactly those that are left are queued. -/
structure Passes (problem : Problem N E D) (run : Run D) (done left : List Nat) : Prop where
  split : done ++ left = Worklist.flowOrder problem.direction problem.graph
  order : run.worklist.order = Worklist.flowOrder problem.direction problem.graph
  visits : run.visits = done.reverse
  outputs : run.outputs = done.foldl problem.applyAt problem.start.outputs
  queued : ∀ id, id ∈ run.worklist.queued ↔ id ∈ left

private theorem passes_start (coherent : problem.graph.Coherent) :
    problem.Passes problem.start [] (Worklist.flowOrder problem.direction problem.graph) where
  split := rfl
  order := Worklist.order_pushAll _ _
  visits := rfl
  outputs := rfl
  queued := by
    intro id
    rw [Worklist.mem_flowOrder_iff coherent, ← Graph.mem_ids, start, Worklist.mem_pushAll]
    simp [Worklist.ofGraph]

namespace Passes

variable {run : Run D} {done left : List Nat} {id : Nat}

/-- The first of the nodes that are left is handed out. -/
theorem pop?_eq (passes : problem.Passes run done (id :: left)) :
    run.worklist.pop? = some (id, run.worklist.erase id) := by
  have distinct := Worklist.nodup_flowOrder problem.direction problem.graph
  rw [← passes.split, List.nodup_append] at distinct
  -- The search runs over the nodes that are done first.
  have none_done : done.find? (· ∈ run.worklist.queued) = none := by
    rw [List.find?_eq_none]
    intro other member
    have apart := fun listed => distinct.2.2 other member other listed rfl
    simpa [passes.queued] using apart
  have queued : id ∈ run.worklist.queued := (passes.queued id).mpr List.mem_cons_self
  rw [Worklist.pop?, Worklist.first?, passes.order, ← passes.split, List.find?_append, none_done]
  simp [queued]

/-- Nothing is queued when no node is left. -/
theorem settled (passes : problem.Passes run done []) : run.worklist.isEmpty = true := by
  rw [Worklist.isEmpty, Std.ExtTreeSet.isEmpty_iff, Std.ExtTreeSet.eq_empty_iff_forall_not_mem]
  simp [passes.queued]

variable [DecidableEq D] (coherent : problem.graph.Coherent) (acyclic : problem.graph.Acyclic)
include coherent acyclic

private theorem visit (passes : problem.Passes run done (id :: left)) :
    problem.Passes (problem.visit run id (run.worklist.erase id)) (done ++ [id]) left := by
  have distinct := Worklist.nodup_flowOrder problem.direction problem.graph
  have member : id ∈ problem.graph := by
    rw [← Worklist.mem_flowOrder_iff coherent problem.direction, ← passes.split]
    simp
  obtain ⟨label, labelled⟩ := Graph.mem_iff_label?.mp member
  have remaining : ∀ other, other ∈ (run.worklist.erase id).queued ↔ other ∈ left := by
    intro other
    rw [(Worklist.pop?_spec passes.pop?_eq).2, passes.queued, List.mem_cons]
    rw [← passes.split, List.nodup_append, List.nodup_cons] at distinct
    have once := distinct.2.1.1
    constructor
    · rintro ⟨different, here | later⟩
      · exact absurd here different
      · exact later
    · exact fun later => ⟨fun same => once (same ▸ later), Or.inr later⟩
  -- What depends on the node comes after it, so it is left.
  have dependents : ∀ other ∈ problem.direction.dependents problem.graph id, other ∈ left := by
    intro other dependent
    have feeds := (Direction.mem_dependents_iff coherent _).mp dependent
    have listed := Worklist.mem_flowOrder coherent problem.direction (feeds.target_mem coherent)
    have forwards := Worklist.pairwise_not_feeds coherent acyclic problem.direction
    rw [← passes.split] at listed forwards
    rcases List.mem_append.mp listed with earlier | here_or_later
    · exact absurd feeds
        ((List.pairwise_append.mp forwards).2.2 other earlier id List.mem_cons_self)
    · refine (List.mem_cons.mp here_or_later).resolve_left ?_
      rintro rfl
      exact Worklist.not_feeds_self coherent acyclic other feeds
  constructor
  case split => rw [← passes.split, List.append_cons done id left]
  case order =>
    rcases problem.visit_cases run id (run.worklist.erase id) with ⟨_, same, _⟩ | ⟨_, _, _, pushed⟩
    · rw [same, Worklist.order_pop? passes.pop?_eq, passes.order]
    · rw [pushed, Worklist.order_pushAll, Worklist.order_pop? passes.pop?_eq, passes.order]
  case visits => rw [visits_visit labelled, passes.visits, List.reverse_append]; rfl
  case outputs => rw [outputs_visit, passes.outputs, List.foldl_append]; rfl
  case queued =>
    intro other
    rcases problem.visit_cases run id (run.worklist.erase id) with ⟨_, same, _⟩ | ⟨_, _, _, pushed⟩
    · rw [same, remaining]
    · rw [pushed, Worklist.mem_pushAll, remaining]
      exact ⟨fun either => either.elim (dependents other) fun later => later, Or.inr⟩

/-- Each visit takes the first of the nodes that are left, until there are none. -/
theorem runFrom (passes : problem.Passes run done left) (count : Nat) :
    problem.Passes (problem.runFrom count run) (done ++ left.take count) (left.drop count) := by
  induction count generalizing run done left with
  | zero => simpa [Problem.runFrom] using passes
  | succ count ih =>
    cases left with
    | nil =>
      rw [Problem.runFrom, Worklist.pop?_eq_none passes.settled]
      simpa using passes
    | cons id later =>
      rw [Problem.runFrom, passes.pop?_eq]
      simpa using ih (passes.visit coherent acyclic)

end Passes

/-! ### The permitted visits -/

/-- One visit for each node is always permitted. -/
theorem nodeCount_le_budget {nodeLimit fuel : Nat} (small : ∀ id ∈ problem.graph, id < maxCount)
    (granted : nodeLimit = 0 → problem.graph.nodeCount ≤ fuel) :
    problem.graph.nodeCount ≤ problem.budget nodeLimit fuel := by
  rw [budget]
  split
  next unlimited => exact granted unlimited
  next limited =>
    exact Nat.le_min.mpr ⟨Nat.le_mul_of_pos_left _ (Nat.pos_of_ne_zero limited),
      Graph.nodeCount_le_of_lt small⟩

/-- Without loops the solver always answers, whatever the limit, the domain and the transfer are.
There is an order of all nodes, each of them after everything from which facts flow to it, in which
they are visited: the first visits are those to the first nodes, and each of them applies the
transfer once at its node, to what the visits before it have left there. So the fact after every
node is the transfer of what flows into it, and it was computed only once. A run without a limit is
followed for at least as many visits as there are nodes. -/
theorem solve_in_one_pass [DecidableEq D] (problem : Problem N E D) (built : problem.graph.Built)
    (acyclic : problem.graph.Acyclic) (small : ∀ id ∈ problem.graph, id < maxCount)
    (nodeLimit fuel : Nat) (granted : nodeLimit = 0 → problem.graph.nodeCount ≤ fuel) :
    ∃ result order, problem.solve nodeLimit fuel = .ok result ∧ order.Perm problem.graph.ids ∧
      (∀ source target, Relation.TransGen (problem.direction.Feeds problem.graph) source target →
        order.idxOf source < order.idxOf target) ∧
      (problem.run nodeLimit fuel).visits.reverse = order ∧
      (∀ count, (problem.runFrom count problem.start).visits.reverse = order.take count ∧
        (problem.runFrom count problem.start).outputs =
          (order.take count).foldl problem.applyAt problem.start.outputs) ∧
      result.outputs = order.foldl problem.applyAt problem.start.outputs ∧
      ∀ id label, problem.graph.label? id = some label →
        result.outputs[id]? = some (problem.transfer (problem.input result.outputs id) id label
          (problem.direction.incoming problem.graph id)) := by
  have coherent := built.coherent
  have order := Worklist.flowOrder_perm_ids coherent problem.direction
  have enough : (Worklist.flowOrder problem.direction problem.graph).length ≤
      problem.budget nodeLimit fuel := by
    rw [order.length_eq, Graph.length_ids]
    exact nodeCount_le_budget small granted
  have passes := (passes_start coherent).runFrom coherent acyclic
  have whole := passes (problem.budget nodeLimit fuel)
  rw [List.drop_of_length_le enough, List.nil_append, List.take_of_length_le enough, ← run] at whole
  have solved : problem.solve nodeLimit fuel =
      .ok { outputs := (problem.run nodeLimit fuel).outputs } :=
    solve_eq_ok_iff.mpr ⟨whole.settled, rfl⟩
  refine ⟨_, _, solved, order, fun _ _ => Worklist.idxOf_lt_of_transGen_feeds coherent acyclic, ?_,
    fun count => ?_, whole.outputs, fun _ _ => getElem?_of_solve coherent solved⟩
  · rw [whole.visits, List.reverse_reverse]
  · rw [(passes count).visits, List.reverse_reverse]
    exact ⟨rfl, (passes count).outputs⟩

/-- Facts flow from the third node to the second one over two edges, and from both of them to the
first one. Nothing flows to the last one. -/
def toggling : Problem Unit Unit Bool :=
  let nodes : Graph Unit Unit :=
    ((((∅ : Graph Unit Unit).insertNode 0 ()).insertNode 1 ()).insertNode 2 ()).insertNode 3 ()
  { graph := (((nodes.addEdge 1 2 ()).addEdge 1 2 ()).addEdge 0 2 ()).addEdge 0 1 ()
    direction := .backward
    domain := .bool
    initial := true
    transfer := fun before id _ _ => if id = 3 then before else !before }

/-- The transfer is not monotone, and still one visit for each node is enough. -/
theorem toggling_in_one_pass :
    toggling.graph.Built ∧ toggling.graph.Acyclic ∧ (∀ id ∈ toggling.graph, id < maxCount) ∧
      toggling.transfer false 1 () [] = true ∧ toggling.transfer true 1 () [] = false ∧
      ∃ result order, toggling.solve 1 0 = .ok result ∧ order.Perm [0, 1, 2, 3] ∧
        order.idxOf 2 < order.idxOf 0 ∧ (toggling.run 1 0).visits.reverse = order ∧
        (toggling.runFrom 2 toggling.start).outputs =
          (order.take 2).foldl toggling.applyAt toggling.start.outputs ∧
        result.outputs = order.foldl toggling.applyAt toggling.start.outputs ∧
        result.outputs.toList = [(0, true), (1, true), (2, false), (3, true)] ∧
        result.outputs[0]? = some (toggling.transfer (toggling.input result.outputs 0) 0 ()
          (toggling.direction.incoming toggling.graph 0)) := by
  have built : toggling.graph.Built := by
    have empty : (∅ : Graph Unit Unit).Built := .empty
    have nodes := (((empty.insertNode 0 ()).insertNode 1 ()).insertNode 2 ()).insertNode 3 ()
    have parallel := (nodes.addEdge 1 2 () (by decide) (by decide)).addEdge 1 2 ()
      (by decide) (by decide)
    exact (parallel.addEdge 0 2 () (by decide) (by decide)).addEdge 0 1 () (by decide) (by decide)
  have acyclic : toggling.graph.Acyclic := Graph.acyclic_of_rank (fun id => id) (by decide +kernel)
  have ids : toggling.graph.ids = [0, 1, 2, 3] := by decide +kernel
  have small : ∀ id ∈ toggling.graph, id < maxCount := by
    intro id member
    rw [← Graph.mem_ids, ids] at member
    have few : ∀ id ∈ [0, 1, 2, 3], id < maxCount := by decide
    exact few id member
  have flows : Relation.TransGen (toggling.direction.Feeds toggling.graph) 2 0 :=
    .tail (.single ⟨(), by decide +kernel⟩)
      (⟨(), by decide +kernel⟩ : toggling.direction.Feeds _ 1 0)
  obtain ⟨result, order, solved, once, ordered, visits, steps, outputs, equations⟩ :=
    solve_in_one_pass toggling built acyclic small 1 0 (by simp)
  have facts : (toggling.run 1 0).outputs.toList =
      [(0, true), (1, true), (2, false), (3, true)] := by
    decide +kernel
  rw [(solve_eq_ok_iff.mp solved).2] at facts
  exact ⟨built, acyclic, small, rfl, rfl, result, order, solved, ids ▸ once, ordered 2 0 flows,
    visits, (steps 2).2, outputs, facts, equations 0 () (by decide +kernel)⟩

end Problem

end FlowIR
