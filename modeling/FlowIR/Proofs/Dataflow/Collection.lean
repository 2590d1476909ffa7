import FlowIR.Proofs.Dataflow.GreatestSolution
import Mathlib.Data.Set.Lattice

/-!
# Facts that collect contributions

In some analyses a fact is made of what certain nodes contribute to it: the meet puts the
contributions of both sides together, and the transfer adds the contribution of its node. The fact
after a node is then made of what exactly those nodes contribute from which facts flow there, over
however many edges. Neither an order nor any law of the meet is needed for this.
-/
namespace FlowIR.Problem

variable {N E D : Type} {problem : Problem N E D} {made : Set Nat → D → Prop}

/-- The nodes from which facts flow to a node, itself included. -/
def sources (problem : Problem N E D) (id : Nat) : Set Nat :=
  {source | source ∈ problem.graph ∧
    Relation.ReflTransGen (problem.direction.Feeds problem.graph) source id}

/-- How facts are made of the contributions of sets of nodes. What is made of each of several sets
is made of all of them together. -/
structure Collects (problem : Problem N E D) (made : Set Nat → D → Prop) : Prop where
  initial : made ∅ problem.initial
  top : made ∅ problem.domain.top
  meet : ∀ {left right : Set Nat} {a b : D}, made left a → made right b →
    made (left ∪ right) (problem.domain.meet a b)
  transfer : ∀ {nodes : Set Nat} {fact : D} {id : Nat} {label : N},
    problem.graph.label? id = some label → made nodes fact → made (insert id nodes)
      (problem.transfer fact id label (problem.direction.incoming problem.graph id))
  sUnion : ∀ {sets : Set (Set Nat)} {fact : D}, sets.Nonempty → (∀ nodes ∈ sets, made nodes fact) →
    made (⋃₀ sets) fact

/-- A node together with the nodes that contributed to what flows into it. -/
def fedBy (problem : Problem N E D) (nodes : Nat → Set Nat) (id : Nat) : Set Nat :=
  insert id {source | ∃ other, problem.direction.Feeds problem.graph other id ∧
    source ∈ nodes other}

namespace Collects

/-- Two ways of being made of contributions hold together. -/
theorem and {also_made : Set Nat → D → Prop} (collects : problem.Collects made)
    (also_collects : problem.Collects also_made) :
    problem.Collects fun nodes fact => made nodes fact ∧ also_made nodes fact where
  initial := ⟨collects.initial, also_collects.initial⟩
  top := ⟨collects.top, also_collects.top⟩
  meet := fun left right => ⟨collects.meet left.1 right.1, also_collects.meet left.2 right.2⟩
  transfer := fun labelled both =>
    ⟨collects.transfer labelled both.1, also_collects.transfer labelled both.2⟩
  sUnion := fun nonempty each =>
    ⟨collects.sUnion nonempty fun nodes member => (each nodes member).1,
    also_collects.sUnion nonempty fun nodes member => (each nodes member).2⟩

private theorem foldl_meet (collects : problem.Collects made) {ι : Type} (indices : List ι)
    (nodes : ι → Set Nat) (facts : ι → D)
    (each : ∀ index ∈ indices, made (nodes index) (facts index)) {before : Set Nat} {start : D}
    (holds : made before start) :
    made (before ∪ {node | ∃ index ∈ indices, node ∈ nodes index})
      ((indices.map facts).foldl problem.domain.meet start) := by
  induction indices generalizing before start with
  | nil => simpa using holds
  | cons index rest ih =>
    have first := collects.meet holds (each index List.mem_cons_self)
    have all := ih (fun other member => each other (List.mem_cons_of_mem index member)) first
    have same : before ∪ {node | ∃ other ∈ index :: rest, node ∈ nodes other} =
        before ∪ nodes index ∪ {node | ∃ other ∈ rest, node ∈ nodes other} := by
      ext node
      simp [or_assoc]
    rw [same]
    exact all

theorem meetAll (collects : problem.Collects made) {ι : Type} (indices : List ι)
    (nodes : ι → Set Nat) (facts : ι → D)
    (each : ∀ index ∈ indices, made (nodes index) (facts index)) :
    made {node | ∃ index ∈ indices, node ∈ nodes index}
      (problem.domain.meetAll (indices.map facts)) := by
  simpa [MeetDomain.meetAll] using collects.foldl_meet indices nodes facts each collects.top

/-- What flows into a node is made of what the facts that flow in are made of. -/
theorem inputOf (collects : problem.Collects made) {facts : Nat → D} {nodes : Nat → Set Nat}
    (id : Nat)
    (each : ∀ other, problem.direction.Feeds problem.graph other id →
      made (nodes other) (facts other)) :
    made {source | ∃ other, problem.direction.Feeds problem.graph other id ∧ source ∈ nodes other}
      (problem.inputOf facts id) := by
  cases edges : problem.direction.incoming problem.graph id with
  | nil =>
    have nothing : {source | ∃ other, problem.direction.Feeds problem.graph other id ∧
        source ∈ nodes other} = ∅ := by
      ext source
      simp [Direction.Feeds, edges]
    rw [nothing]
    simpa only [Problem.inputOf, edges] using collects.initial
  | cons first rest =>
    have met := collects.meetAll (first :: rest) (fun edge => nodes edge.1)
      (fun edge => facts edge.1) fun edge member => each edge.1 ⟨edge.2, edges ▸ member⟩
    have same : {source | ∃ other, problem.direction.Feeds problem.graph other id ∧
        source ∈ nodes other} = {node | ∃ edge ∈ first :: rest, node ∈ nodes edge.1} := by
      ext source
      constructor
      · rintro ⟨other, ⟨label, listed⟩, contributed⟩
        exact ⟨(other, label), edges ▸ listed, contributed⟩
      · rintro ⟨⟨other, label⟩, listed, contributed⟩
        exact ⟨other, ⟨label, edges ▸ listed⟩, contributed⟩
    rw [same]
    simpa only [Problem.inputOf, edges] using met

/-- If what flows into a node comes from the sources of where it comes from, then what leaves the
node comes from its own sources. -/
theorem fedBy (collects : problem.Collects made) {facts : Nat → D} {nodes : Nat → Set Nat}
    {id : Nat} {label : N} (labelled : problem.graph.label? id = some label)
    (each : ∀ other, problem.direction.Feeds problem.graph other id →
      made (nodes other) (facts other) ∧ nodes other ⊆ problem.sources other) :
    made (problem.fedBy nodes id) (problem.transfer (problem.inputOf facts id) id label
        (problem.direction.incoming problem.graph id)) ∧
      problem.fedBy nodes id ⊆ problem.sources id := by
  constructor
  · exact collects.transfer labelled (collects.inputOf id fun other feeds => (each other feeds).1)
  · rintro source (rfl | ⟨other, feeds, contributed⟩)
    · exact ⟨Graph.mem_iff_label?.mpr ⟨label, labelled⟩, .refl⟩
    · obtain ⟨source_mem, steps⟩ := (each other feeds).2 contributed
      exact ⟨source_mem, steps.tail feeds⟩

/-- The facts of all nodes are made of what comes from their sources. -/
def Within (problem : Problem N E D) (made : Set Nat → D → Prop) (facts : Nat → D) : Prop :=
  ∀ id, id ∈ problem.graph → ∃ nodes, made nodes (facts id) ∧ nodes ⊆ problem.sources id

section

variable (collects : problem.Collects made) (coherent : problem.graph.Coherent)
include collects coherent

theorem within_run [DecidableEq D] (nodeLimit fuel : Nat) :
    Within problem made (problem.factsOf (problem.run nodeLimit fuel).outputs) := by
  refine runFrom_keeps (fun run => Within problem made (problem.factsOf run.outputs)) ?_ _ ?_
  · intro run id rest within _
    refine visit_forall (fun other fact => ∃ nodes, made nodes fact ∧ nodes ⊆ problem.sources other)
      rest within fun label labelled => ?_
    choose! nodes chosen using within
    exact ⟨problem.fedBy nodes id,
      collects.fedBy labelled fun other feeds => chosen other (feeds.source_mem coherent)⟩
  · intro id _
    rw [factsOf_start]
    exact ⟨∅, collects.initial, Set.empty_subset _⟩

/-- Where the equations hold, nothing is missing that comes from a source: a contribution is handed
on along every edge. -/
theorem exists_made_of_source {facts : Nat → D} (solution : problem.IsSolution facts)
    (within : Within problem made facts) {source id : Nat} (reaches : source ∈ problem.sources id)
    (member : id ∈ problem.graph) :
    ∃ nodes, made nodes (facts id) ∧ nodes ⊆ problem.sources id ∧ source ∈ nodes := by
  classical
  choose! nodes chosen using within
  obtain ⟨source_mem, steps⟩ := reaches
  induction steps with
  | refl =>
    obtain ⟨label, labelled⟩ := Graph.mem_iff_label?.mp source_mem
    obtain ⟨source_made, source_within⟩ := collects.fedBy labelled fun other feeds =>
      chosen other (feeds.source_mem coherent)
    rw [solution source label labelled]
    exact ⟨_, source_made, source_within, Set.mem_insert source _⟩
  | @tail before id _ feeds ih =>
    -- The nodes that brought the contribution to the node before stand for that node from here on.
    obtain ⟨brought, brought_made, brought_within, contributed⟩ := ih (feeds.source_mem coherent)
    have updated : ∀ other, problem.direction.Feeds problem.graph other id →
        made (Function.update nodes before brought other) (facts other) ∧
          Function.update nodes before brought other ⊆ problem.sources other := by
      intro other other_feeds
      by_cases here : other = before
      · subst here
        simpa using ⟨brought_made, brought_within⟩
      · simpa [here] using chosen other (other_feeds.source_mem coherent)
    obtain ⟨label, labelled⟩ := Graph.mem_iff_label?.mp member
    obtain ⟨id_made, id_within⟩ := collects.fedBy labelled updated
    rw [solution id label labelled]
    exact ⟨_, id_made, id_within, Or.inr ⟨before, feeds, by simpa using contributed⟩⟩

/-- After a run that settles, the fact of each node is made of the contributions of all of its
sources. -/
theorem solve [DecidableEq D] {nodeLimit fuel : Nat} {solution : Solution D}
    (solved : problem.solve nodeLimit fuel = .ok solution) {id : Nat}
    (member : id ∈ problem.graph) :
    made (problem.sources id) (problem.factsOf solution.outputs id) := by
  have within : Within problem made (problem.factsOf solution.outputs) := by
    rw [← (solve_eq_ok_iff.mp solved).2]
    exact collects.within_run coherent nodeLimit fuel
  have equations := solve_isSolution coherent solved
  -- The sets of sources that the fact is made of have all sources as their union.
  have together : ⋃₀ {nodes | made nodes (problem.factsOf solution.outputs id) ∧
      nodes ⊆ problem.sources id} = problem.sources id := by
    apply Set.Subset.antisymm
    · exact Set.sUnion_subset fun nodes inside => inside.2
    · intro source reaches
      obtain ⟨nodes, nodes_made, nodes_within, contributed⟩ :=
        collects.exists_made_of_source coherent equations within reaches member
      exact ⟨nodes, ⟨nodes_made, nodes_within⟩, contributed⟩
  rw [← together]
  exact collects.sUnion (within id member) fun nodes inside => inside.1

end

end Collects

end FlowIR.Problem
