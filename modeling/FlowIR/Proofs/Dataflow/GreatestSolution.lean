import FlowIR.Proofs.Dataflow.Solver

/-!
# The greatest solution

Over a meet domain, and for monotone transfers that do not lift the initial fact, the facts of a run
only descend and stay above every solution below the initial fact. A run that settles therefore
gives the greatest of these solutions, and the order in which the nodes are visited cannot be seen
in it.
-/
namespace FlowIR

variable {N E D : Type}

/-! ### The order of a meet domain -/

namespace MeetDomain

/-- The laws that a meet has to obey. -/
structure Lawful (domain : MeetDomain D) : Prop where
  idempotent : ∀ a, domain.meet a a = a
  commutative : ∀ a b, domain.meet a b = domain.meet b a
  associative : ∀ a b c, domain.meet a (domain.meet b c) = domain.meet (domain.meet a b) c
  top_meet : ∀ a, domain.meet domain.top a = a

variable [DecidableEq D] {domain : MeetDomain D}

theorem lessOrEqual_iff {a b : D} : domain.lessOrEqual a b = true ↔ domain.meet a b = a := by
  simp [lessOrEqual]

namespace Lawful

variable (lawful : domain.Lawful)
include lawful

theorem refl (a : D) : domain.lessOrEqual a a = true := lessOrEqual_iff.mpr (lawful.idempotent a)

theorem trans {a b c : D} (first : domain.lessOrEqual a b = true)
    (second : domain.lessOrEqual b c = true) : domain.lessOrEqual a c = true := by
  rw [lessOrEqual_iff] at first second ⊢
  calc domain.meet a c
      = domain.meet (domain.meet a b) c := by rw [first]
    _ = domain.meet a (domain.meet b c) := (lawful.associative a b c).symm
    _ = a := by rw [second, first]

theorem le_top (a : D) : domain.lessOrEqual a domain.top = true := by
  rw [lessOrEqual_iff, lawful.commutative, lawful.top_meet]

private theorem meet_le_right (a b : D) : domain.lessOrEqual (domain.meet a b) b = true := by
  rw [lessOrEqual_iff, ← lawful.associative, lawful.idempotent]

private theorem meet_le_left (a b : D) : domain.lessOrEqual (domain.meet a b) a = true := by
  rw [lawful.commutative]
  exact lawful.meet_le_right b a

private theorem le_meet {a b c : D} (left : domain.lessOrEqual a b = true)
    (right : domain.lessOrEqual a c = true) : domain.lessOrEqual a (domain.meet b c) = true := by
  rw [lessOrEqual_iff] at left right ⊢
  rw [lawful.associative, left, right]

private theorem meet_mono {a b c d : D} (left : domain.lessOrEqual a b = true)
    (right : domain.lessOrEqual c d = true) :
    domain.lessOrEqual (domain.meet a c) (domain.meet b d) = true :=
  lawful.le_meet (lawful.trans (lawful.meet_le_left a c) left)
    (lawful.trans (lawful.meet_le_right a c) right)

private theorem foldl_meet_le (elements : List D) (start : D) :
    domain.lessOrEqual (elements.foldl domain.meet start) start = true := by
  induction elements generalizing start with
  | nil => exact lawful.refl start
  | cons first rest ih => exact lawful.trans (ih _) (lawful.meet_le_left start first)

/-- The meet of several elements is below each of them. -/
theorem meetAll_le {elements : List D} {element : D} (member : element ∈ elements) :
    domain.lessOrEqual (domain.meetAll elements) element = true := by
  obtain ⟨before, after, rfl⟩ := List.append_of_mem member
  rw [meetAll, List.foldl_append, List.foldl_cons]
  exact lawful.trans (lawful.foldl_meet_le after _) (lawful.meet_le_right _ element)

private theorem meetAll_map_mono {ι : Type} (indices : List ι) {left right : ι → D}
    (below : ∀ index ∈ indices, domain.lessOrEqual (left index) (right index) = true) :
    domain.lessOrEqual (domain.meetAll (indices.map left)) (domain.meetAll (indices.map right)) =
      true := by
  -- The two folds stay in order from any two starts that are in order.
  suffices step : ∀ a b, domain.lessOrEqual a b = true → domain.lessOrEqual
      ((indices.map left).foldl domain.meet a) ((indices.map right).foldl domain.meet b) = true from
    step _ _ (lawful.refl _)
  induction indices with
  | nil => exact fun a b start => start
  | cons first rest ih =>
    intro a b start
    exact ih (fun index member => below index (List.mem_cons_of_mem first member)) _ _
      (lawful.meet_mono start (below first List.mem_cons_self))

end Lawful

end MeetDomain

namespace Problem

variable [DecidableEq D]

/-! ### Inputs and transfers in this order -/

/-- At every node, with its label and the edges into it, the transfer keeps the order. -/
def Monotone (problem : Problem N E D) : Prop :=
  ∀ id label, problem.graph.label? id = some label → ∀ a b, problem.domain.lessOrEqual a b = true →
    problem.domain.lessOrEqual
      (problem.transfer a id label (problem.direction.incoming problem.graph id))
      (problem.transfer b id label (problem.direction.incoming problem.graph id)) = true

/-- No node lifts the initial fact. -/
def InitialDescends (problem : Problem N E D) : Prop :=
  ∀ id label, problem.graph.label? id = some label →
    problem.domain.lessOrEqual
      (problem.transfer problem.initial id label (problem.direction.incoming problem.graph id))
      problem.initial = true

/-- These facts are below those ones at every node. -/
def Below (problem : Problem N E D) (lower upper : Nat → D) : Prop :=
  ∀ id, id ∈ problem.graph → problem.domain.lessOrEqual (lower id) (upper id) = true

variable {problem : Problem N E D}

private theorem initialDescends_of_top (lawful : problem.domain.Lawful)
    (top : problem.initial = problem.domain.top) : problem.InitialDescends := by
  intro id label _
  rw [top]
  exact lawful.le_top _

theorem inputOf_mono (coherent : problem.graph.Coherent) (lawful : problem.domain.Lawful)
    {lower upper : Nat → D} (below : problem.Below lower upper) (id : Nat) :
    problem.domain.lessOrEqual (problem.inputOf lower id) (problem.inputOf upper id) = true := by
  cases edges : problem.direction.incoming problem.graph id with
  | nil => simpa only [inputOf, edges] using lawful.refl problem.initial
  | cons first rest =>
    simp only [inputOf, edges]
    apply lawful.meetAll_map_mono
    rintro ⟨other, label⟩ member
    have feeds : problem.direction.Feeds problem.graph other id := ⟨label, edges ▸ member⟩
    exact below other (feeds.source_mem coherent)

theorem inputOf_le_initial (coherent : problem.graph.Coherent) (lawful : problem.domain.Lawful)
    {facts : Nat → D} (below : problem.Below facts fun _ => problem.initial) (id : Nat) :
    problem.domain.lessOrEqual (problem.inputOf facts id) problem.initial = true := by
  cases edges : problem.direction.incoming problem.graph id with
  | nil => simpa only [inputOf, edges] using lawful.refl problem.initial
  | cons first rest =>
    have feeds : problem.direction.Feeds problem.graph first.1 id :=
      ⟨first.2, edges ▸ List.mem_cons_self⟩
    -- Any one of the facts that flow in is below the initial fact, and their meet is below it.
    simp only [inputOf, edges, List.map_cons]
    exact lawful.trans (lawful.meetAll_le List.mem_cons_self)
      (below first.1 (feeds.source_mem coherent))

/-! ### What every visit keeps -/

/-- A visit changes the fact of the visited node at most, to what the transfer gives. -/
theorem visit_forall (holds : Nat → D → Prop) {run : Run D} {id : Nat} (rest : Worklist)
    (before : ∀ other, other ∈ problem.graph → holds other (problem.factsOf run.outputs other))
    (fresh : ∀ label, problem.graph.label? id = some label →
      holds id (problem.visitOutput run.outputs id label)) :
    ∀ other, other ∈ problem.graph →
      holds other (problem.factsOf (problem.visit run id rest).outputs other) := by
  intro other member
  rcases problem.visit_cases run id rest with ⟨outputs, _, _⟩ | ⟨label, labelled, outputs, _⟩
  · rw [outputs]
    exact before other member
  · rw [outputs, factsOf_insert]
    split
    next here =>
      subst here
      exact fresh label labelled
    next => exact before other member

section

variable (coherent : problem.graph.Coherent) (lawful : problem.domain.Lawful)
  (monotone : problem.Monotone)
include coherent lawful monotone

/-- The new fact is below the transfer of the initial fact, which is not lifted. -/
theorem below_initial_visit (descends : problem.InitialDescends) {run : Run D} (id : Nat)
    (rest : Worklist)
    (below : problem.Below (problem.factsOf run.outputs) fun _ => problem.initial) :
    problem.Below (problem.factsOf (problem.visit run id rest).outputs) fun _ =>
      problem.initial := by
  apply visit_forall (fun _ fact => problem.domain.lessOrEqual fact problem.initial = true) rest
    below
  intro label labelled
  have input_below := inputOf_le_initial coherent lawful below id
  exact lawful.trans (monotone id label labelled _ _ input_below) (descends id label labelled)

/-- A solution is at each node the transfer of what flows into it, and less flows in there than in a
run that is above the solution. -/
theorem above_visit {facts : Nat → D} (solution : problem.IsSolution facts) {run : Run D} (id : Nat)
    (rest : Worklist) (above : problem.Below facts (problem.factsOf run.outputs)) :
    problem.Below facts (problem.factsOf (problem.visit run id rest).outputs) := by
  apply visit_forall (fun other fact => problem.domain.lessOrEqual (facts other) fact = true) rest
    above
  intro label labelled
  have input_above := inputOf_mono coherent lawful above id
  rw [solution id label labelled]
  exact monotone id label labelled _ _ input_above

/-! ### Whole runs -/

private theorem below_initial_run (descends : problem.InitialDescends) (nodeLimit fuel : Nat) :
    problem.Below (problem.factsOf (problem.run nodeLimit fuel).outputs) fun _ =>
      problem.initial := by
  refine runFrom_keeps
    (fun run => problem.Below (problem.factsOf run.outputs) fun _ => problem.initial) ?_ _ ?_
  · intro run id rest below _
    exact below_initial_visit coherent lawful monotone descends id rest below
  · intro id _
    rw [factsOf_start]
    exact lawful.refl problem.initial

private theorem above_run {facts : Nat → D} (solution : problem.IsSolution facts)
    (bounded : problem.Below facts fun _ => problem.initial) (nodeLimit fuel : Nat) :
    problem.Below facts (problem.factsOf (problem.run nodeLimit fuel).outputs) := by
  refine runFrom_keeps
    (fun run => problem.Below facts (problem.factsOf run.outputs)) ?_ _ ?_
  · intro run id rest above _
    exact above_visit coherent lawful monotone solution id rest above
  · intro id member
    rw [factsOf_start]
    exact bounded id member

end

/-- Whatever the direction and the limit are, a run that settles gives every node of the graph a
fact. The facts solve the equations and are below the initial fact, and every other solution below
the initial fact is below them. When the initial fact is the top, no transfer can lift it. -/
theorem solve_greatest (problem : Problem N E D) (built : problem.graph.Built)
    (lawful : problem.domain.Lawful) (monotone : problem.Monotone)
    (descends : problem.initial = problem.domain.top ∨ problem.InitialDescends)
    (nodeLimit fuel : Nat) (result : Solution D)
    (solved : problem.solve nodeLimit fuel = .ok result) :
    (∀ id, id ∈ result.outputs ↔ id ∈ problem.graph) ∧
      problem.IsSolution (problem.factsOf result.outputs) ∧
      problem.Below (problem.factsOf result.outputs) (fun _ => problem.initial) ∧
      ∀ facts, problem.IsSolution facts → problem.Below facts (fun _ => problem.initial) →
        problem.Below facts (problem.factsOf result.outputs) := by
  have coherent := built.coherent
  have not_lifted : problem.InitialDescends :=
    descends.elim (initialDescends_of_top lawful) fun not_lifted => not_lifted
  have solution := solve_isSolution coherent solved
  obtain ⟨_, outputs⟩ := solve_eq_ok_iff.mp solved
  rw [← outputs] at solution ⊢
  exact ⟨(problem.consistent_run coherent nodeLimit fuel).same_nodes, solution,
    below_initial_run coherent lawful monotone not_lifted nodeLimit fuel,
    fun facts other bounded => above_run coherent lawful monotone other bounded nodeLimit fuel⟩

/-- Facts from the first node reach the second one, and the third node only feeds itself. -/
def selfFed : Problem Unit Unit Bool :=
  { graph := (((((∅ : Graph Unit Unit).insertNode 0 ()).insertNode 1 ()).insertNode 2 ()).addEdge
      0 1 ()).addEdge 2 2 ()
    direction := .forward
    domain := .bool
    initial := true
    transfer := fun before id _ _ => id != 0 && before }

/-- Both facts solve the equation of a node that only feeds itself, and the run settles on the
greater. -/
theorem selfFed_greatest :
    selfFed.graph.Built ∧ selfFed.domain.Lawful ∧ selfFed.Monotone ∧
      selfFed.initial = selfFed.domain.top ∧
      ∃ result, selfFed.solve 1 0 = .ok result ∧
        result.outputs.toList = [(0, false), (1, false), (2, true)] ∧
        selfFed.IsSolution (selfFed.factsOf result.outputs) ∧ selfFed.IsSolution (fun _ => false) ∧
        selfFed.Below (fun _ => false) (selfFed.factsOf result.outputs) := by
  have built : selfFed.graph.Built := by
    have empty : (∅ : Graph Unit Unit).Built := .empty
    have nodes := ((empty.insertNode 0 ()).insertNode 1 ()).insertNode 2 ()
    exact (nodes.addEdge 0 1 () (by decide) (by decide)).addEdge 2 2 () (by decide) (by decide)
  have lawful : selfFed.domain.Lawful := ⟨by decide, by decide, by decide, by decide⟩
  have monotone : selfFed.Monotone := by
    intro id label _ a b below
    cases a <;> cases b <;> simp_all [selfFed, MeetDomain.lessOrEqual, MeetDomain.bool]
  have least : selfFed.IsSolution fun _ => false := by
    -- The three nodes are checked one by one.
    intro id label labelled
    have member : id ∈ selfFed.graph.ids :=
      Graph.mem_ids.mpr (Graph.mem_iff_label?.mpr ⟨_, labelled⟩)
    have nodes : selfFed.graph.ids = [0, 1, 2] := by decide +kernel
    simp only [nodes, List.mem_cons, List.not_mem_nil, or_false] at member
    rcases member with rfl | rfl | rfl <;> decide +kernel +revert
  have solved : selfFed.solve 1 0 = .ok { outputs := (selfFed.run 1 0).outputs } :=
    solve_eq_ok_iff.mpr ⟨by decide +kernel, rfl⟩
  have greatest := solve_greatest selfFed built lawful monotone (Or.inl rfl) 1 0 _ solved
  refine ⟨built, lawful, monotone, rfl, _, solved, by decide +kernel, greatest.2.1, least, ?_⟩
  exact greatest.2.2.2 _ least (fun _ _ => rfl)

end Problem

end FlowIR
