import FlowIR.Proofs.Dataflow.Convergence
import Mathlib.Order.Lattice.Nat

/-!
# Facts that descend

Over a lawful meet domain, and for monotone transfers that do not lift the initial fact, a visit
never lifts the fact of its node: less flows into the node than when the fact was computed. So the
facts of a node form a strictly descending chain from the initial fact on, and a bound for the
length of such chains bounds the number of visits.
-/
namespace FlowIR

variable {N E D : Type}

/-! ### Descending chains -/

namespace MeetDomain

variable [DecidableEq D]

def StrictlyBelow (domain : MeetDomain D) (lower upper : D) : Prop :=
  domain.lessOrEqual lower upper = true ∧ lower ≠ upper

/-- So many steps, each of them strictly downwards, lead from the start to an element. -/
inductive DescendsBy (domain : MeetDomain D) (start : D) : Nat → D → Prop
  | refl : DescendsBy domain start 0 start
  | step {steps : Nat} {upper lower : D} (chain : DescendsBy domain start steps upper)
      (below : domain.StrictlyBelow lower upper) : DescendsBy domain start (steps + 1) lower

/-- No strictly descending chain from the start has more steps than this. -/
def HeightAtMost (domain : MeetDomain D) (start : D) (height : Nat) : Prop :=
  ∀ steps element, domain.DescendsBy start steps element → steps ≤ height

/-- The length of the longest descending chain from the start to an element. -/
noncomputable def depth (domain : MeetDomain D) (start element : D) : Nat :=
  sSup {steps | domain.DescendsBy start steps element}

variable {domain : MeetDomain D} {start upper lower : D} {height : Nat}

private theorem exists_descendsBy (below : domain.lessOrEqual lower start = true) :
    ∃ steps, domain.DescendsBy start steps lower := by
  by_cases same : lower = start
  · exact ⟨0, same ▸ .refl⟩
  · exact ⟨1, .step .refl ⟨below, same⟩⟩

private theorem HeightAtMost.bddAbove (bounded : domain.HeightAtMost start height) (element : D) :
    BddAbove {steps | domain.DescendsBy start steps element} :=
  ⟨height, fun steps chain => bounded steps element chain⟩

/-- The longest chain to an element can be continued downwards. -/
theorem HeightAtMost.depth_lt (bounded : domain.HeightAtMost start height)
    (reached : ∃ steps, domain.DescendsBy start steps upper)
    (below : domain.StrictlyBelow lower upper) :
    domain.depth start upper < domain.depth start lower ∧ domain.depth start lower ≤ height := by
  have longest : domain.DescendsBy start (domain.depth start upper) upper :=
    Nat.sSup_mem reached (bounded.bddAbove upper)
  have continued : domain.DescendsBy start (domain.depth start upper + 1) lower :=
    .step longest below
  have longer : domain.depth start upper + 1 ≤ domain.depth start lower :=
    le_csSup (bounded.bddAbove lower) continued
  have longest_lower : domain.DescendsBy start (domain.depth start lower) lower :=
    Nat.sSup_mem ⟨_, continued⟩ (bounded.bddAbove lower)
  exact ⟨longer, bounded _ _ longest_lower⟩

end MeetDomain

namespace Problem

variable [DecidableEq D] {problem : Problem N E D}

/-! ### What every visit keeps -/

/-- All facts are below the initial one, and visiting a node would not lift its fact. -/
structure Descending (problem : Problem N E D) (run : Run D) : Prop where
  below : problem.Below (problem.factsOf run.outputs) fun _ => problem.initial
  falls : ∀ id label, problem.graph.label? id = some label → problem.domain.lessOrEqual
    (problem.visitOutput run.outputs id label) (problem.factsOf run.outputs id) = true

section

variable (coherent : problem.graph.Coherent) (lawful : problem.domain.Lawful)
  (monotone : problem.Monotone) (descends : problem.InitialDescends)
include coherent lawful monotone

private theorem visitOutput_mono {lower upper : Std.ExtTreeMap Nat D}
    (below : problem.Below (problem.factsOf lower) (problem.factsOf upper)) {id : Nat} {label : N}
    (labelled : problem.graph.label? id = some label) :
    problem.domain.lessOrEqual (problem.visitOutput lower id label)
      (problem.visitOutput upper id label) = true :=
  monotone id label labelled _ _ (inputOf_mono coherent lawful below id)

include descends

private theorem descending_start : problem.Descending problem.start := by
  have below : problem.Below (problem.factsOf problem.start.outputs) fun _ => problem.initial := by
    intro id _
    rw [factsOf_start]
    exact lawful.refl problem.initial
  refine ⟨below, fun id label labelled => ?_⟩
  have input_below := inputOf_le_initial coherent lawful below id
  rw [factsOf_start]
  exact lawful.trans (monotone id label labelled _ _ input_below) (descends id label labelled)

private theorem Descending.visit {run : Run D} (descending : problem.Descending run) (id : Nat)
    (rest : Worklist) :
    problem.Descending (problem.visit run id rest) := by
  refine ⟨below_initial_visit coherent lawful monotone descends id rest descending.below, ?_⟩
  rcases problem.visit_cases run id rest with ⟨outputs, _, _⟩ | ⟨label, labelled, outputs, _⟩
  · rw [outputs]
    exact descending.falls
  · -- The fact of the visited node falls, so whatever is computed from now on is below what it was
    -- before.
    have fallen : problem.Below
        (problem.factsOf (run.outputs.insert id (problem.visitOutput run.outputs id label)))
        (problem.factsOf run.outputs) := by
      intro other _
      rw [factsOf_insert]
      split
      next here =>
        subst here
        exact descending.falls id label labelled
      next => exact lawful.refl _
    intro other other_label other_labelled
    have less := visitOutput_mono coherent lawful monotone fallen other_labelled
    rw [outputs, factsOf_insert]
    split
    next here =>
      subst here
      obtain rfl : label = other_label := Option.some.inj (labelled.symm.trans other_labelled)
      exact less
    next => exact lawful.trans less (descending.falls other other_label other_labelled)

/-- Each change of a fact makes its chain longer. -/
theorem descending_grows {height : Nat}
    (bounded : problem.domain.HeightAtMost problem.initial height) :
    problem.Grows problem.Descending (problem.domain.depth problem.initial) height where
  start := descending_start coherent lawful monotone descends
  visit := fun _ id rest descending _ => descending.visit coherent lawful monotone descends id rest
  change := by
    intro run id label descending labelled changed
    have member := Graph.mem_iff_label?.mpr ⟨label, labelled⟩
    exact bounded.depth_lt (MeetDomain.exists_descendsBy (descending.below id member))
      ⟨descending.falls id label labelled, changed.symm⟩

end

/-! ### Answers -/

/-- What the solver answers once it is granted enough fuel. Without a limit, a run that does not
settle has no answer. -/
def Answers (problem : Problem N E D) (nodeLimit : Nat)
    (answer : Except DidNotConverge (Solution D)) : Prop :=
  ∃ enough, ∀ fuel, enough ≤ fuel → problem.solve nodeLimit fuel = answer

/-- More visits than were needed do not change the solution. -/
theorem solve_of_budget_le {nodeLimit fuel other_limit other_fuel : Nat} {result : Solution D}
    (solved : problem.solve nodeLimit fuel = .ok result)
    (more : problem.budget nodeLimit fuel ≤ problem.budget other_limit other_fuel) :
    problem.solve other_limit other_fuel = .ok result := by
  rw [solve_eq_ok_iff] at solved ⊢
  have same : problem.run other_limit other_fuel = problem.run nodeLimit fuel :=
    runFrom_of_settled solved.1 more
  rw [same]
  exact solved

private theorem answers_of_solve {fuel nodeLimit : Nat} {result : Solution D}
    (solved : problem.solve 0 fuel = .ok result)
    (enough : nodeLimit = 0 ∨ fuel ≤ problem.visitLimit nodeLimit) :
    problem.Answers nodeLimit (.ok result) := by
  refine ⟨fuel, fun more granted => solve_of_budget_le solved ?_⟩
  simp only [budget, if_true]
  split
  · exact granted
  next limited => exact enough.resolve_left limited

/-- The solver only gives up when there is a limit, and then it has made all visits that the limit
permits. -/
theorem processed_of_answers (coherent : problem.graph.Coherent) {nodeLimit : Nat}
    {stopped : DidNotConverge} (gives_up : problem.Answers nodeLimit (.error stopped)) :
    0 < nodeLimit ∧ stopped.processed = problem.visitLimit nodeLimit := by
  obtain ⟨enough, answered⟩ := gives_up
  have processed : ∀ fuel, enough ≤ fuel → stopped.processed = problem.budget nodeLimit fuel := by
    intro fuel granted
    have answer := answered fuel granted
    rcases problem.solve_outcome coherent nodeLimit fuel with ⟨result, solved⟩ | stops
    · rw [solved] at answer
      cases answer
    · rw [stops] at answer
      cases answer
      rfl
  rcases Nat.eq_zero_or_pos nodeLimit with rfl | limited
  · -- Without a limit, all fuel would be used up, however much it is.
    have used := processed enough (Nat.le_refl enough)
    have used_more := processed (enough + 1) (Nat.le_succ enough)
    simp only [budget, if_true] at used used_more
    omega
  · have used := processed enough (Nat.le_refl enough)
    rw [budget, if_neg (Nat.ne_of_gt limited)] at used
    exact ⟨limited, used⟩

/-- If no strictly descending chain from the initial fact has more steps than the height, then no
run makes more visits than one for each node and one for each pair of joined nodes and each step. So
there is a solution, and it is found without a limit and with every limit that leaves so many
visits. Whatever the transfer is, the solver only gives up at a limit, and then all visits that the
limit permits were made. -/
theorem solve_within_height (problem : Problem N E D) (built : problem.graph.Built) :
    (∀ height, problem.domain.Lawful → problem.Monotone → problem.InitialDescends →
      problem.domain.HeightAtMost problem.initial height →
      (∀ nodeLimit fuel, (problem.run nodeLimit fuel).visits.length ≤
        problem.graph.nodeCount + height * problem.graph.joinedPairs.ncard) ∧
      ∃ result, problem.Answers 0 (.ok result) ∧
        ∀ nodeLimit, problem.graph.nodeCount + height * problem.graph.joinedPairs.ncard ≤
          min (nodeLimit * problem.graph.nodeCount) maxCount →
            problem.Answers nodeLimit (.ok result)) ∧
      ∀ nodeLimit stopped, problem.Answers nodeLimit (.error stopped) →
        0 < nodeLimit ∧ stopped.processed = min (nodeLimit * problem.graph.nodeCount) maxCount := by
  have coherent := built.coherent
  refine ⟨fun height lawful monotone descends bounded => ?_,
    fun _ _ => processed_of_answers coherent⟩
  have grows := descending_grows coherent lawful monotone descends bounded
  have oriented := Direction.coherent_orient coherent problem.direction
  have pairs := Direction.ncard_joinedPairs_orient coherent problem.direction
  have fewer := Nat.mul_le_mul_left height (pairs ▸ oriented.ncard_edgesBehindLoops_le)
  have enough := Nat.add_le_add_left fewer problem.graph.nodeCount
  refine ⟨fun nodeLimit fuel => ?_, ?_⟩
  · have bound := grows.total_le coherent (problem.budget nodeLimit fuel)
    rw [total] at bound
    rw [run]
    omega
  · have permitted : problem.graph.nodeCount +
        height * (problem.direction.orient problem.graph).edgesBehindLoops.ncard ≤
          problem.budget 0 (problem.graph.nodeCount + height * problem.graph.joinedPairs.ncard) :=
      enough
    obtain ⟨result, solved⟩ := grows.solves coherent permitted
    exact ⟨result, answers_of_solve solved (Or.inl rfl),
      fun nodeLimit permitted => answers_of_solve solved (Or.inr permitted)⟩

/-- Two nodes feed each other, over three edges, and lower what they get. -/
def draining : Problem Unit Unit (Fin 4) :=
  { graph := (((((∅ : Graph Unit Unit).insertNode 0 ()).insertNode 1 ()).addEdge 0 1 ()).addEdge
    0 1 ()).addEdge
      1 0 ()
    direction := .backward
    domain := { top := 3, meet := min }
    initial := 3
    transfer := fun before _ _ _ => ⟨before.val - 1, by omega⟩ }

/-- The facts can fall three times, and there are two pairs of joined nodes. Four visits for each
node are enough, and one is not. -/
theorem draining_within_height :
    draining.graph.Built ∧ draining.domain.Lawful ∧ draining.Monotone ∧ draining.InitialDescends ∧
      draining.domain.HeightAtMost draining.initial 3 ∧
      (∀ nodeLimit fuel, (draining.run nodeLimit fuel).visits.length ≤ 8) ∧
      (∃ result, draining.Answers 0 (.ok result) ∧ draining.Answers 4 (.ok result)) ∧
      draining.Answers 1 (.error { processed := 2 }) ∧
        2 = min (1 * draining.graph.nodeCount) maxCount := by
  have built : draining.graph.Built := by
    have empty : (∅ : Graph Unit Unit).Built := .empty
    have nodes := (empty.insertNode 0 ()).insertNode 1 ()
    have parallel := (nodes.addEdge 0 1 () (by decide) (by decide)).addEdge 0 1 ()
      (by decide) (by decide)
    exact parallel.addEdge 1 0 () (by decide) (by decide)
  have lawful : draining.domain.Lawful := ⟨by decide, by decide, by decide, by decide⟩
  have lowers : ∀ a b, draining.domain.lessOrEqual a b = true →
      draining.domain.lessOrEqual (draining.transfer a 0 () []) (draining.transfer b 0 () []) =
        true := by decide
  have monotone : draining.Monotone := fun _ _ _ => lowers
  have descends : draining.InitialDescends := fun _ _ _ => lawful.le_top _
  have bounded : draining.domain.HeightAtMost draining.initial 3 := by
    -- What is left below an element is less with every step.
    have left : ∀ steps element, draining.domain.DescendsBy draining.initial steps element →
        steps + element.val ≤ 3 := by
      intro steps element chain
      induction chain with
      | refl => decide
      | @step steps upper lower _ below ih =>
        have order : lower ≤ upper := min_eq_left_iff.mp (MeetDomain.lessOrEqual_iff.mp below.1)
        have less : lower < upper := lt_of_le_of_ne order below.2
        omega
    intro steps element chain
    have := left steps element chain
    omega
  have pairs : draining.graph.joinedPairs.ncard ≤ 2 :=
    built.coherent.ncard_joinedPairs_le.trans (by decide +kernel)
  have nodes : draining.graph.nodeCount = 2 := by decide +kernel
  have within := solve_within_height draining built
  obtain ⟨few, result, unlimited, limited⟩ := within.1 3 lawful monotone descends bounded
  have gives_up : draining.Answers 1 (.error { processed := 2 }) := by
    refine ⟨0, fun fuel _ => ?_⟩
    have queued : (draining.run 1 fuel).worklist.isEmpty = false := by
      have same : draining.run 1 fuel = draining.runFrom 2 draining.start := rfl
      rw [same]
      decide +kernel
    rw [solve_eq_error_of_queued built.coherent queued]
    rfl
  rw [nodes] at few limited
  refine ⟨built, lawful, monotone, descends, bounded, fun nodeLimit fuel => ?_,
    ⟨result, unlimited, limited 4 ?_⟩, gives_up, (within.2 1 _ gives_up).2⟩
  · have visits := few nodeLimit fuel
    omega
  · have room : 8 ≤ maxCount := by decide
    omega

end Problem

end FlowIR
