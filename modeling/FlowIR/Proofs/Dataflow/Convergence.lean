import FlowIR.Proofs.Dataflow.Collection
import FlowIR.Proofs.Graph.Postorder
import Mathlib.Algebra.BigOperators.Ring.Finset
import Mathlib.Algebra.Order.BigOperators.Group.Finset
import Mathlib.Data.Set.Card

/-!
# How many visits a run takes

Every visit takes one node off the queue. If it changes the fact of the node, then the nodes that
depend on it are queued, and the fact has used up one of the changes that it can go through. So the
queue together with the changes that are left, each counted with the nodes that it may queue, falls
with every visit.

Nodes are handed out in reverse postorder. A node behind which no loop lies is not visited again
once something that depends on it was, so a change of its fact queues nothing that is not queued
already. Without loops a run visits every node once.
-/
namespace FlowIR

variable {N E D : Type}

/-! ### Loops -/

namespace Graph

variable {graph : Graph N E}

/-- The node is on a loop, or a loop leads to it. -/
def BehindLoop (graph : Graph N E) (id : Nat) : Prop :=
  ∃ start next, graph.HasEdge start next ∧ graph.Reaches next start ∧ graph.Reaches start id

/-- The pairs of nodes with an edge from the first one, which is behind a loop, to the second
one. -/
def edgesBehindLoops (graph : Graph N E) : Set (Nat × Nat) :=
  {edge | graph.HasEdge edge.1 edge.2 ∧ graph.BehindLoop edge.1}

/-- The pairs of nodes with an edge from the first one to the second one. -/
def joinedPairs (graph : Graph N E) : Set (Nat × Nat) := {edge | graph.HasEdge edge.1 edge.2}

private theorem BehindLoop.next (coherent : graph.Coherent) {id next : Nat}
    (behind : graph.BehindLoop id) (edge : graph.HasEdge id next) : graph.BehindLoop next := by
  obtain ⟨start, second, first_edge, back, leads⟩ := behind
  exact ⟨start, second, first_edge, back, leads.trans (reaches_of_hasEdge coherent edge)⟩

theorem behindLoop_of_reaches_back {id next : Nat} (edge : graph.HasEdge id next)
    (back : graph.Reaches next id) : graph.BehindLoop id :=
  ⟨id, next, edge, back, reaches_refl edge.source_mem⟩

private theorem Coherent.joinedPairs_subset (coherent : graph.Coherent) :
    graph.joinedPairs ⊆
      (graph.ids.flatMap fun id => (graph.succIds id).map fun next => (id, next)).toFinset := by
  rintro ⟨source, target⟩ edge
  simp [mem_ids, edge.source_mem, coherent.mem_succIds.mpr edge]

theorem Coherent.ncard_joinedPairs_le (coherent : graph.Coherent) :
    graph.joinedPairs.ncard ≤ (graph.ids.flatMap graph.succIds).length := by
  have fewer := Set.ncard_le_ncard coherent.joinedPairs_subset
  rw [Set.ncard_coe_finset] at fewer
  refine (fewer.trans (List.toFinset_card_le _)).trans (le_of_eq ?_)
  simp [List.length_flatMap]

theorem Coherent.ncard_edgesBehindLoops_le (coherent : graph.Coherent) :
    graph.edgesBehindLoops.ncard ≤ graph.joinedPairs.ncard :=
  Set.ncard_le_ncard (fun _ edge => edge.1)
    ((Finset.finite_toSet _).subset coherent.joinedPairs_subset)

end Graph

namespace Direction

variable {graph : Graph N E}

theorem coherent_orient (coherent : graph.Coherent) (direction : Direction) :
    (direction.orient graph).Coherent := by
  cases direction with
  | forward => exact coherent
  | backward => exact coherent.reverse

theorem mem_orient {direction : Direction} {id : Nat} :
    id ∈ direction.orient graph ↔ id ∈ graph := by
  cases direction with
  | forward => rfl
  | backward => exact Graph.mem_reverse

/-- Facts flow along the edges of the oriented graph. -/
theorem feeds_iff (coherent : graph.Coherent) {direction : Direction} {source target : Nat} :
    direction.Feeds graph source target ↔ (direction.orient graph).HasEdge source target := by
  cases direction with
  | forward => exact feeds_forward_iff coherent
  | backward => exact feeds_backward_iff.trans (Graph.hasEdge_reverse coherent).symm

theorem ncard_joinedPairs_orient (coherent : graph.Coherent) (direction : Direction) :
    (direction.orient graph).joinedPairs.ncard = graph.joinedPairs.ncard := by
  cases direction with
  | forward => rfl
  | backward =>
    have turned : graph.reverse.joinedPairs = Prod.swap '' graph.joinedPairs := by
      ext ⟨source, target⟩
      simp [Graph.joinedPairs, Graph.hasEdge_reverse coherent]
    rw [orient, turned, Set.ncard_image_of_injective _ Prod.swap_injective]

private theorem nodup_dependents (direction : Direction) (graph : Graph N E) (id : Nat) :
    (direction.dependents graph id).Nodup := by
  cases direction with
  | forward => exact Std.ExtTreeMap.nodup_keys
  | backward => exact Std.ExtTreeMap.nodup_keys

theorem Feeds.target_mem (coherent : graph.Coherent) {direction : Direction} {source target : Nat}
    (feeds : direction.Feeds graph source target) : target ∈ graph :=
  mem_orient.mp ((coherent_orient coherent direction).target_mem ((feeds_iff coherent).mp feeds))

end Direction

/-! ### Sizes and orders of worklists -/

namespace Worklist

variable {worklist rest : Worklist} {id : Nat}

theorem order_pushAll (worklist : Worklist) (ids : List Nat) :
    (worklist.pushAll ids).order = worklist.order := by
  induction ids generalizing worklist with
  | nil => rfl
  | cons first others ih => exact ih (worklist.push first)

theorem order_pop? (popped : worklist.pop? = some (id, rest)) : rest.order = worklist.order := by
  obtain ⟨_, _, same⟩ := Option.map_eq_some_iff.mp popped
  obtain ⟨rfl, rfl⟩ := Prod.mk.inj same
  rfl

private theorem size_pop? (popped : worklist.pop? = some (id, rest)) :
    rest.queued.size + 1 = worklist.queued.size := by
  have queued := (pop?_spec popped).1
  have some_queued : worklist.queued.size ≠ 0 := fun none_queued => by
    rw [← Std.ExtTreeSet.eq_empty_iff_size_eq_zero] at none_queued
    simp [none_queued] at queued
  obtain ⟨_, _, same⟩ := Option.map_eq_some_iff.mp popped
  obtain ⟨rfl, rfl⟩ := Prod.mk.inj same
  rw [erase, Std.ExtTreeSet.size_erase, if_pos (Std.ExtTreeSet.mem_iff_contains.mp queued)]
  omega

private theorem isEmpty_of_pop?_eq_none (nothing : worklist.pop? = none) :
    worklist.isEmpty = true := by
  rw [pop?, Option.map_eq_none_iff, first?] at nothing
  have no_least : worklist.queued.min? = none := by
    cases found : worklist.order.find? (· ∈ worklist.queued) with
    | none => simpa [found] using nothing
    | some ranked => simp [found] at nothing
  rw [isEmpty, Std.ExtTreeSet.isEmpty_iff]
  exact Std.ExtTreeSet.min?_eq_none_iff.mp no_least

private theorem size_pushAll_le (worklist : Worklist) (ids : List Nat) :
    (worklist.pushAll ids).queued.size ≤ worklist.queued.size + ids.length := by
  induction ids generalizing worklist with
  | nil => exact Nat.le_refl _
  | cons first others ih =>
    have pushed : (worklist.push first).queued.size ≤ worklist.queued.size + 1 :=
      Std.ExtTreeSet.size_insert_le
    have all := ih (worklist.push first)
    change ((worklist.push first).pushAll others).queued.size ≤ _
    rw [List.length_cons]
    omega

private theorem size_pushAll_of_queued {ids : List Nat}
    (queued : ∀ other ∈ ids, other ∈ worklist.queued) :
    (worklist.pushAll ids).queued.size ≤ worklist.queued.size := by
  induction ids generalizing worklist with
  | nil => exact Nat.le_refl _
  | cons first others ih =>
    have same : (worklist.push first).queued.size = worklist.queued.size := by
      have present := Std.ExtTreeSet.mem_iff_contains.mp (queued first List.mem_cons_self)
      rw [push, Std.ExtTreeSet.size_insert, if_pos present]
    rw [← same]
    apply ih
    intro other member
    exact Std.ExtTreeSet.mem_insert.mpr (Or.inr (queued other (List.mem_cons_of_mem _ member)))

/-- What is handed out comes before everything else that is queued. -/
theorem pop?_first {relation : Nat → Nat → Prop} (ordered : worklist.order.Pairwise relation)
    (popped : worklist.pop? = some (id, rest)) {other : Nat} (queued : other ∈ worklist.queued)
    (ranked : other ∈ worklist.order) : other = id ∨ relation id other := by
  obtain ⟨found, first, same⟩ := Option.map_eq_some_iff.mp popped
  obtain ⟨rfl, _⟩ := Prod.mk.inj same
  cases search : worklist.order.find? (· ∈ worklist.queued) with
  | none =>
    rw [List.find?_eq_none] at search
    exact absurd queued (by simpa using search other ranked)
  | some least =>
    rw [first?, search] at first
    obtain rfl : least = found := Option.some.inj first
    obtain ⟨_, before, after, split, unqueued⟩ := List.find?_eq_some_iff_append.mp search
    rw [split] at ranked ordered
    -- Nothing before the first queued node is queued.
    rcases List.mem_append.mp ranked with early | late
    · exact absurd queued (by simpa using unqueued other early)
    · rcases List.mem_cons.mp late with rfl | later
      · exact Or.inl rfl
      · have behind := (List.pairwise_append.mp ordered).2.1
        exact Or.inr ((List.pairwise_cons.mp behind).1 other later)

theorem mem_flowOrder {graph : Graph N E} (coherent : graph.Coherent) (direction : Direction)
    (member : id ∈ graph) : id ∈ flowOrder direction graph := by
  have oriented_mem : id ∈ direction.orient graph := Direction.mem_orient.mpr member
  rw [flowOrder, List.mem_reverse,
    Graph.mem_postorder (Direction.coherent_orient coherent direction)]
  exact ⟨id, List.mem_append_right _ (Graph.mem_ids.mpr oriented_mem),
    Graph.reaches_refl oriented_mem⟩

/-- Facts that flow to an earlier node flow around a loop. -/
theorem leadsBack_flowOrder {graph : Graph N E} (coherent : graph.Coherent)
    (direction : Direction) :
    (flowOrder direction graph).Pairwise fun id later =>
      (direction.orient graph).HasEdge later id → (direction.orient graph).Reaches id later := by
  rw [flowOrder, List.pairwise_reverse]
  exact Graph.leadsBack_postorder (Direction.coherent_orient coherent direction) _

end Worklist

namespace Problem

variable [DecidableEq D] {problem : Problem N E D}

/-! ### Single visits -/

private theorem visit_eq {run : Run D} {id : Nat} {label : N}
    (labelled : problem.graph.label? id = some label) (rest : Worklist) :
    problem.visit run id rest =
      if run.outputs[id]? = some (problem.visitOutput run.outputs id label) then
        { run with worklist := rest, visits := id :: run.visits }
      else
        { outputs := run.outputs.insert id (problem.visitOutput run.outputs id label)
          worklist := rest.pushAll (problem.direction.dependents problem.graph id)
          visits := id :: run.visits } := by
  simp [visit, labelled]

theorem visits_visit {run : Run D} {id : Nat} {label : N}
    (labelled : problem.graph.label? id = some label) (rest : Worklist) :
    (problem.visit run id rest).visits = id :: run.visits := by
  rw [visit_eq labelled]
  split <;> rfl

/-- Whether or not the fact changes, afterwards it is the one that was computed. -/
theorem factsOf_visit {run : Run D} {id : Nat} {label : N}
    (labelled : problem.graph.label? id = some label) (rest : Worklist) (other : Nat) :
    problem.factsOf (problem.visit run id rest).outputs other =
      if id = other then problem.visitOutput run.outputs id label
      else problem.factsOf run.outputs other := by
  rw [visit_eq labelled]
  split
  next unchanged =>
    split
    next here =>
      subst here
      rw [factsOf, Std.ExtTreeMap.getD_eq_getD_getElem?, unchanged, Option.getD_some]
    next => rfl
  next => exact factsOf_insert ..

/-- The queue after a visit: nothing but the visited node leaves it, and only nodes that depend on
it join. -/
theorem queued_visit {run : Run D} {id : Nat} {rest : Worklist}
    (popped : run.worklist.pop? = some (id, rest)) (other : Nat) :
    (other ∈ run.worklist.queued →
      other = id ∨ other ∈ (problem.visit run id rest).worklist.queued) ∧
      (other ∈ (problem.visit run id rest).worklist.queued →
        other ∈ problem.direction.dependents problem.graph id ∨
          other ≠ id ∧ other ∈ run.worklist.queued) := by
  have taken := (Worklist.pop?_spec popped).2 other
  rcases problem.visit_cases run id rest with ⟨_, same, _⟩ | ⟨_, _, _, pushed⟩
  · rw [same, taken]
    by_cases here : other = id <;> simp +contextual [here]
  · rw [pushed, Worklist.mem_pushAll, taken]
    by_cases here : other = id <;> simp +contextual [here]

/-! ### What every run keeps -/

/-- Only nodes are queued, all nodes that were not visited yet are queued, and once a node was
visited, whatever feeds it is settled, unless it lies behind a loop. -/
structure Orderly (problem : Problem N E D) (run : Run D) : Prop where
  order : run.worklist.order = Worklist.flowOrder problem.direction problem.graph
  nodes : ∀ id ∈ run.worklist.queued, id ∈ problem.graph
  waiting : ∀ id ∈ problem.graph, id ∉ run.visits → id ∈ run.worklist.queued
  settled : ∀ source target, problem.direction.Feeds problem.graph source target →
    target ∈ run.visits →
    ¬ (problem.direction.orient problem.graph).BehindLoop source → source ∉ run.worklist.queued

omit [DecidableEq D] in
theorem orderly_start (problem : Problem N E D) : problem.Orderly problem.start where
  order := Worklist.order_pushAll _ _
  nodes := by
    intro id queued
    rcases Worklist.mem_pushAll.mp queued with listed | before
    · exact Graph.mem_ids.mp listed
    · simp [Worklist.ofGraph] at before
  waiting := fun id member _ => Worklist.mem_pushAll.mpr (Or.inl (Graph.mem_ids.mpr member))
  settled := fun _ _ _ visited => by simp [start] at visited

namespace Orderly

variable {run : Run D} {id : Nat} {rest : Worklist}

omit [DecidableEq D] in
theorem label_of_pop? (orderly : problem.Orderly run)
    (popped : run.worklist.pop? = some (id, rest)) :
    ∃ label, problem.graph.label? id = some label :=
  Graph.mem_iff_label?.mp (orderly.nodes id (Worklist.pop?_spec popped).1)

omit [DecidableEq D] in
/-- A queued node that feeds the one that is handed out comes after it, so the edge between them
leads back. -/
theorem behindLoop_of_queued (coherent : problem.graph.Coherent) (orderly : problem.Orderly run)
    (popped : run.worklist.pop? = some (id, rest)) {source : Nat}
    (queued : source ∈ run.worklist.queued) (different : source ≠ id)
    (feeds : problem.direction.Feeds problem.graph source id) :
    (problem.direction.orient problem.graph).BehindLoop source := by
  have edge := (Direction.feeds_iff coherent).mp feeds
  have ordered := Worklist.leadsBack_flowOrder coherent problem.direction
  rw [← orderly.order] at ordered
  have ranked : source ∈ run.worklist.order := by
    rw [orderly.order]
    exact Worklist.mem_flowOrder coherent _ (feeds.source_mem coherent)
  have back := (Worklist.pop?_first ordered popped queued ranked).resolve_left different
  exact Graph.behindLoop_of_reaches_back edge (back edge)

omit [DecidableEq D] in
/-- A visit only queues a node again that feeds visited ones if the node is behind a loop. -/
theorem behindLoop_of_dependent (coherent : problem.graph.Coherent) (orderly : problem.Orderly run)
    (queued : id ∈ run.worklist.queued) {source target : Nat}
    (dependent : problem.direction.Feeds problem.graph id source)
    (feeds : problem.direction.Feeds problem.graph source target)
    (visited : target = id ∨ target ∈ run.visits) :
    (problem.direction.orient problem.graph).BehindLoop source := by
  have oriented := Direction.coherent_orient coherent problem.direction
  have edge_into_source := (Direction.feeds_iff coherent).mp dependent
  rcases visited with rfl | earlier
  · -- The two nodes feed each other, which is a loop.
    have edge := (Direction.feeds_iff coherent).mp feeds
    exact Graph.behindLoop_of_reaches_back edge (Graph.reaches_of_hasEdge oriented edge_into_source)
  · -- The source is not queued any more, so it was visited, and then what feeds it is settled, too.
    by_contra calm
    have source_visited : source ∈ run.visits := by
      by_contra unvisited
      exact orderly.settled source target feeds earlier calm
        (orderly.waiting source (feeds.source_mem coherent) unvisited)
    have still_calm : ¬ (problem.direction.orient problem.graph).BehindLoop id :=
      fun behind => calm (behind.next oriented edge_into_source)
    exact orderly.settled id source dependent source_visited still_calm queued

theorem visit (coherent : problem.graph.Coherent) (orderly : problem.Orderly run)
    (popped : run.worklist.pop? = some (id, rest)) :
    problem.Orderly (problem.visit run id rest) := by
  obtain ⟨label, labelled⟩ := orderly.label_of_pop? popped
  have feeds_of_dependent : ∀ other, other ∈ problem.direction.dependents problem.graph id →
      problem.direction.Feeds problem.graph id other := fun other =>
    (Direction.mem_dependents_iff coherent _).mp
  have visits : (problem.visit run id rest).visits = id :: run.visits := visits_visit labelled rest
  constructor
  case order =>
    rcases problem.visit_cases run id rest with ⟨_, same, _⟩ | ⟨_, _, _, pushed⟩
    · rw [same, Worklist.order_pop? popped, orderly.order]
    · rw [pushed, Worklist.order_pushAll, Worklist.order_pop? popped, orderly.order]
  case nodes =>
    intro other still_queued
    rcases (queued_visit popped other).2 still_queued with dependent | ⟨_, before⟩
    · exact (feeds_of_dependent other dependent).target_mem coherent
    · exact orderly.nodes other before
  case waiting =>
    intro other member unvisited
    rw [visits, List.mem_cons, not_or] at unvisited
    exact ((queued_visit popped other).1 (orderly.waiting other member unvisited.2)).resolve_left
      unvisited.1
  case settled =>
    intro source target feeds visited calm still_queued
    rw [visits, List.mem_cons] at visited
    -- Either the visit has queued the source, or the source has been waiting since before it.
    rcases (queued_visit popped source).2 still_queued with dependent | ⟨different, before⟩
    · have queued := (Worklist.pop?_spec popped).1
      exact calm (orderly.behindLoop_of_dependent coherent queued
        (feeds_of_dependent source dependent) feeds visited)
    · rcases visited with rfl | earlier
      · exact calm (orderly.behindLoop_of_queued coherent popped before different feeds)
      · exact orderly.settled source target feeds earlier calm before

end Orderly

/-! ### The end of a run -/

/-- A run that has not settled has used up all of its visits. -/
theorem visits_runFrom (coherent : problem.graph.Coherent) (budget : Nat) {run : Run D}
    (orderly : problem.Orderly run) :
    (problem.runFrom budget run).worklist.isEmpty = true ∨
      (problem.runFrom budget run).visits.length = budget + run.visits.length := by
  induction budget generalizing run with
  | zero => exact Or.inr (by simp [runFrom])
  | succ budget ih =>
    rw [runFrom]
    split
    next nothing => exact Or.inl (Worklist.isEmpty_of_pop?_eq_none nothing)
    next id rest popped =>
      obtain ⟨label, labelled⟩ := orderly.label_of_pop? popped
      rcases ih (orderly.visit coherent popped) with settled | counted
      · exact Or.inl settled
      · rw [visits_visit labelled, List.length_cons] at counted
        exact Or.inr (by omega)

theorem solve_eq_error_of_queued (coherent : problem.graph.Coherent) {nodeLimit fuel : Nat}
    (queued : (problem.run nodeLimit fuel).worklist.isEmpty = false) :
    problem.solve nodeLimit fuel = .error { processed := problem.budget nodeLimit fuel } := by
  have counted := (problem.visits_runFrom coherent (problem.budget nodeLimit fuel)
    problem.orderly_start).resolve_left (by simpa [run] using queued)
  rw [solve, Run.solution, if_neg (by simp [queued])]
  simpa [start, run] using counted

/-- There is a solution, or the permitted number of visits was not enough. -/
theorem solve_outcome (coherent : problem.graph.Coherent) (nodeLimit fuel : Nat) :
    (∃ solution, problem.solve nodeLimit fuel = .ok solution) ∨
      problem.solve nodeLimit fuel = .error { processed := problem.budget nodeLimit fuel } := by
  cases queued : (problem.run nodeLimit fuel).worklist.isEmpty with
  | true =>
    exact Or.inl ⟨{ outputs := (problem.run nodeLimit fuel).outputs },
      solve_eq_ok_iff.mpr ⟨queued, rfl⟩⟩
  | false => exact Or.inr (solve_eq_error_of_queued coherent queued)

/-! ### The visits that are left -/

open Classical in
/-- So many nodes may be queued again when the fact of a node changes. -/
noncomputable def retriggers (problem : Problem N E D) (id : Nat) : Nat :=
  if (problem.direction.orient problem.graph).BehindLoop id then
    (problem.direction.dependents problem.graph id).length
  else 0

omit [DecidableEq D] in
private theorem sum_retriggers (coherent : problem.graph.Coherent) :
    ∑ id ∈ problem.graph.ids.toFinset, problem.retriggers id =
      (problem.direction.orient problem.graph).edgesBehindLoops.ncard := by
  classical
  -- The pairs, listed by their first nodes.
  let listed : Finset (Σ _ : Nat, Nat) :=
    (problem.graph.ids.toFinset.filter (problem.direction.orient problem.graph).BehindLoop).sigma
      fun id => (problem.direction.dependents problem.graph id).toFinset
  have pairs : (problem.direction.orient problem.graph).edgesBehindLoops =
      (fun pair : Σ _ : Nat, Nat => (pair.1, pair.2)) '' listed := by
    ext ⟨source, target⟩
    have joined : target ∈ problem.direction.dependents problem.graph source ↔
        (problem.direction.orient problem.graph).HasEdge source target := by
      rw [Direction.mem_dependents_iff coherent, Direction.feeds_iff coherent]
    have member : (problem.direction.orient problem.graph).HasEdge source target →
        source ∈ problem.graph :=
      fun edge => Direction.mem_orient.mp edge.source_mem
    simp only [Graph.edgesBehindLoops, Set.mem_ofPred_eq, Set.mem_image, Finset.mem_coe,
      Finset.mem_sigma, Finset.mem_filter, List.mem_toFinset, Graph.mem_ids, Sigma.exists,
      Prod.mk.injEq, listed]
    constructor
    · intro ⟨edge, behind⟩
      exact ⟨source, target, ⟨⟨member edge, behind⟩, joined.mpr edge⟩, rfl, rfl⟩
    · rintro ⟨_, _, ⟨⟨_, behind⟩, dependent⟩, rfl, rfl⟩
      exact ⟨joined.mp dependent, behind⟩
  rw [pairs, Set.ncard_image_of_injective, Set.ncard_coe_finset, Finset.card_sigma,
    Finset.sum_filter]
  · apply Finset.sum_congr rfl
    intro id _
    rw [retriggers, List.toFinset_card_of_nodup (Direction.nodup_dependents _ _ id)]
  · rintro ⟨_, _⟩ ⟨_, _⟩ same
    cases same
    rfl

/-- Each time a fact changes it grows, up to some height. -/
structure Grows (problem : Problem N E D) (invariant : Run D → Prop) (growth : D → Nat)
    (height : Nat) : Prop where
  start : invariant problem.start
  visit : ∀ run id rest, invariant run → run.worklist.pop? = some (id, rest) →
    invariant (problem.visit run id rest)
  change : ∀ run id label, invariant run → problem.graph.label? id = some label →
    problem.factsOf run.outputs id ≠ problem.visitOutput run.outputs id label →
    growth (problem.factsOf run.outputs id) < growth (problem.visitOutput run.outputs id label) ∧
      growth (problem.visitOutput run.outputs id label) ≤ height

/-- The nodes that may be queued again by all changes that are left. -/
noncomputable def remaining (problem : Problem N E D) (growth : D → Nat) (height : Nat)
    (outputs : Std.ExtTreeMap Nat D) : Nat :=
  ∑ id ∈ problem.graph.ids.toFinset,
    (height - growth (problem.factsOf outputs id)) * problem.retriggers id

omit [DecidableEq D] in
private theorem remaining_insert {growth : D → Nat} {height : Nat} {outputs : Std.ExtTreeMap Nat D}
    {id : Nat} {fact : D} (member : id ∈ problem.graph)
    (grown : growth (problem.factsOf outputs id) < growth fact) (bounded : growth fact ≤ height) :
    problem.remaining growth height (outputs.insert id fact) + problem.retriggers id ≤
      problem.remaining growth height outputs := by
  have listed : id ∈ problem.graph.ids.toFinset := List.mem_toFinset.mpr (Graph.mem_ids.mpr member)
  rw [remaining, remaining, ← Finset.add_sum_erase _ _ listed, ← Finset.add_sum_erase _ _ listed]
  -- Only the summand of the node itself changes.
  have others : ∑ other ∈ problem.graph.ids.toFinset.erase id,
      (height - growth (problem.factsOf (outputs.insert id fact) other)) *
        problem.retriggers other =
      ∑ other ∈ problem.graph.ids.toFinset.erase id,
        (height - growth (problem.factsOf outputs other)) * problem.retriggers other := by
    apply Finset.sum_congr rfl
    intro other other_mem
    rw [factsOf_insert, if_neg (Finset.ne_of_mem_erase other_mem).symm]
  rw [others, factsOf_insert, if_pos rfl]
  have one_less : height - growth fact + 1 ≤ height - growth (problem.factsOf outputs id) := by
    omega
  have scaled := Nat.mul_le_mul_right (problem.retriggers id) one_less
  rw [Nat.add_mul, Nat.one_mul] at scaled
  omega

omit [DecidableEq D] in
/-- A change queues at most the dependents of the node, and none of them if no loop leads to it. -/
theorem Orderly.size_pushAll (coherent : problem.graph.Coherent) {run : Run D} {id : Nat}
    {rest : Worklist} (orderly : problem.Orderly run)
    (popped : run.worklist.pop? = some (id, rest)) :
    (rest.pushAll (problem.direction.dependents problem.graph id)).queued.size ≤
      rest.queued.size + problem.retriggers id := by
  rw [retriggers]
  split
  next => exact Worklist.size_pushAll_le rest _
  next calm =>
    apply Worklist.size_pushAll_of_queued
    intro other dependent
    have feeds := (Direction.mem_dependents_iff coherent _).mp dependent
    obtain ⟨queued, taken⟩ := Worklist.pop?_spec popped
    rw [taken]
    -- A dependent is not queued only if it is the node itself or was visited, and then there is a
    -- loop.
    constructor
    · rintro rfl
      have edge := (Direction.feeds_iff coherent).mp feeds
      exact calm (Graph.behindLoop_of_reaches_back edge (Graph.reaches_refl edge.source_mem))
    · apply orderly.waiting other (feeds.target_mem coherent)
      exact fun visited => orderly.settled id other feeds visited calm queued

section

variable {invariant : Run D → Prop} {growth : D → Nat} {height : Nat}

/-- The visits so far, the queue and what may still be queued. -/
noncomputable def total (problem : Problem N E D) (growth : D → Nat) (height : Nat)
    (run : Run D) : Nat :=
  run.visits.length + run.worklist.queued.size + problem.remaining growth height run.outputs

private theorem Grows.total_visit (grows : problem.Grows invariant growth height)
    (coherent : problem.graph.Coherent) {run : Run D} {id : Nat} {rest : Worklist}
    (holds : invariant run) (consistent : problem.Consistent run) (orderly : problem.Orderly run)
    (popped : run.worklist.pop? = some (id, rest)) :
    problem.total growth height (problem.visit run id rest) ≤ problem.total growth height run := by
  obtain ⟨label, labelled⟩ := orderly.label_of_pop? popped
  have shorter := Worklist.size_pop? popped
  rw [total, total, visits_visit labelled, visit_eq labelled, List.length_cons]
  split
  next => dsimp only; omega
  next changed =>
    have member := Graph.mem_iff_label?.mpr ⟨label, labelled⟩
    have different : problem.factsOf run.outputs id ≠ problem.visitOutput run.outputs id label := by
      intro same
      have recorded := getElem?_eq_factsOf problem ((consistent.same_nodes id).mpr member)
      exact changed (same ▸ recorded)
    -- What the queue gains is paid for by the growth of the fact.
    obtain ⟨grown, bounded⟩ := grows.change run id label holds labelled different
    have fewer := remaining_insert member grown bounded
    have pushed := orderly.size_pushAll coherent popped
    dsimp only
    omega

theorem Grows.total_le (grows : problem.Grows invariant growth height)
    (coherent : problem.graph.Coherent) (budget : Nat) :
    problem.total growth height (problem.runFrom budget problem.start) ≤
      problem.graph.nodeCount +
        height * (problem.direction.orient problem.graph).edgesBehindLoops.ncard := by
  have kept : invariant (problem.runFrom budget problem.start) ∧
      problem.Consistent (problem.runFrom budget problem.start) ∧
      problem.Orderly (problem.runFrom budget problem.start) ∧
      problem.total growth height (problem.runFrom budget problem.start) ≤
        problem.total growth height problem.start := by
    apply runFrom_keeps fun run => invariant run ∧ problem.Consistent run ∧ problem.Orderly run ∧
      problem.total growth height run ≤ problem.total growth height problem.start
    · rintro run id rest ⟨holds, consistent, orderly, bounded⟩ popped
      exact ⟨grows.visit run id rest holds popped, consistent.visit coherent popped,
        orderly.visit coherent popped,
        (grows.total_visit coherent holds consistent orderly popped).trans bounded⟩
    · exact ⟨grows.start, problem.consistent_start, problem.orderly_start, le_rfl⟩
  apply kept.2.2.2.trans
  -- At the start all nodes are queued, and every fact may still grow by the whole height.
  have queue : problem.start.worklist.queued.size ≤ problem.graph.nodeCount := by
    have pushed := (Worklist.ofGraph problem.direction problem.graph).size_pushAll_le
      problem.graph.ids
    simpa [Problem.start, Worklist.ofGraph, Graph.ids, Graph.nodeCount] using pushed
  have changes : problem.remaining growth height problem.start.outputs ≤
      height * (problem.direction.orient problem.graph).edgesBehindLoops.ncard := by
    rw [← sum_retriggers coherent, Finset.mul_sum]
    exact Finset.sum_le_sum fun id _ => Nat.mul_le_mul_right _ (Nat.sub_le _ _)
  have no_visit : problem.start.visits.length = 0 := rfl
  rw [total]
  omega

/-- If facts grow up to some height, then a run settles after one visit of each node and one more
for each change behind a loop and each node that depends on it. -/
theorem Grows.solves (grows : problem.Grows invariant growth height)
    (coherent : problem.graph.Coherent) {nodeLimit fuel : Nat}
    (enough : problem.graph.nodeCount +
      height * (problem.direction.orient problem.graph).edgesBehindLoops.ncard ≤
      problem.budget nodeLimit fuel) :
    ∃ solution, problem.solve nodeLimit fuel = .ok solution := by
  have bounded := grows.total_le coherent (problem.budget nodeLimit fuel)
  rcases problem.visits_runFrom coherent (problem.budget nodeLimit fuel) problem.orderly_start with
    settled | counted
  · exact ⟨{ outputs := _ }, solve_eq_ok_iff.mpr ⟨settled, rfl⟩⟩
  · -- All permitted visits were made, so nothing can be left in the queue.
    have no_visit : problem.start.visits.length = 0 := rfl
    rw [total] at bounded
    have empty : (problem.run nodeLimit fuel).worklist.queued.size = 0 := by
      rw [run]
      omega
    have settled : (problem.run nodeLimit fuel).worklist.isEmpty = true := by
      rw [Worklist.isEmpty, Std.ExtTreeSet.isEmpty_iff, Std.ExtTreeSet.eq_empty_iff_size_eq_zero,
        empty]
    exact ⟨{ outputs := _ }, solve_eq_ok_iff.mpr ⟨settled, rfl⟩⟩

/-! ### Facts that collect contributions -/

omit [DecidableEq D] in
private theorem fedBy_mono {before after : Nat → Set Nat} (more : ∀ id, before id ⊆ after id)
    (id : Nat) :
    problem.fedBy before id ⊆ problem.fedBy after id := by
  apply Set.insert_subset_insert
  rintro source ⟨other, feeds, contributed⟩
  exact ⟨other, feeds, more other contributed⟩

/-- Each fact is made of the contributions of some nodes, and visiting its node again loses none of
them. -/
def Gathers (problem : Problem N E D) (made : Set Nat → D → Prop) (run : Run D) : Prop :=
  ∃ nodes : Nat → Set Nat, ∀ id ∈ problem.graph, made (nodes id) (problem.factsOf run.outputs id) ∧
    nodes id ⊆ problem.sources id ∧ nodes id ⊆ problem.fedBy nodes id

variable {made : Set Nat → D → Prop}

omit [DecidableEq D] in
private theorem Collects.gathers_start (collects : problem.Collects made) :
    problem.Gathers made problem.start := by
  refine ⟨fun _ => ∅, fun id _ => ⟨?_, Set.empty_subset _, Set.empty_subset _⟩⟩
  rw [factsOf_start]
  exact collects.initial

private theorem Collects.gathers_visit (collects : problem.Collects made)
    (coherent : problem.graph.Coherent) {run : Run D} (id : Nat) (rest : Worklist)
    (gathers : problem.Gathers made run) :
    problem.Gathers made (problem.visit run id rest) := by
  obtain ⟨nodes, each⟩ := gathers
  rcases problem.visit_cases run id rest with ⟨outputs, _, _⟩ | ⟨label, labelled, outputs, _⟩
  · exact ⟨nodes, by rwa [outputs]⟩
  · have member : id ∈ problem.graph := Graph.mem_iff_label?.mpr ⟨label, labelled⟩
    -- Nothing is lost when the node is visited, so nothing is lost at the others later on.
    have more : ∀ other, nodes other ⊆ Function.update nodes id (problem.fedBy nodes id) other := by
      intro other
      by_cases here : other = id
      · subst here
        simpa using (each other member).2.2
      · simp [here]
    refine ⟨Function.update nodes id (problem.fedBy nodes id), fun other other_mem => ?_⟩
    rw [outputs, factsOf_insert]
    by_cases here : id = other
    · subst here
      obtain ⟨output_made, within⟩ := collects.fedBy labelled fun source feeds =>
        ⟨(each source (feeds.source_mem coherent)).1, (each source (feeds.source_mem coherent)).2.1⟩
      simp only [if_true, Function.update_self]
      exact ⟨output_made, within, fedBy_mono more id⟩
    · simp only [here, if_false, Function.update_of_ne (Ne.symm here)]
      exact ⟨(each other other_mem).1, (each other other_mem).2.1,
        (each other other_mem).2.2.trans (fedBy_mono more other)⟩

/-- If a fact is larger whenever it is another one and made of more, then facts grow along every
run. -/
theorem Collects.grows (collects : problem.Collects made) (coherent : problem.graph.Coherent)
    (larger : ∀ fewer more a b, made fewer a → made more b → fewer ⊆ more →
      more ⊆ {id | id ∈ problem.graph} → a ≠ b → growth a < growth b ∧ growth b ≤ height) :
    problem.Grows (problem.Gathers made) growth height where
  start := collects.gathers_start
  visit := fun _ id rest gathers _ => collects.gathers_visit coherent id rest gathers
  change := by
    rintro run id label ⟨nodes, each⟩ labelled changed
    have member : id ∈ problem.graph := Graph.mem_iff_label?.mpr ⟨label, labelled⟩
    obtain ⟨before_made, _, nothing_lost⟩ := each id member
    obtain ⟨after_made, within⟩ := collects.fedBy labelled fun source feeds =>
      ⟨(each source (feeds.source_mem coherent)).1, (each source (feeds.source_mem coherent)).2.1⟩
    exact larger _ _ _ _ before_made after_made nothing_lost
      (fun source inside => (within inside).1) changed

end

end Problem

end FlowIR
