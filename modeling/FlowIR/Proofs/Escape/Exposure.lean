import FlowIR.Proofs.Escape.Lattice
import FlowIR.Proofs.Escape.Summary
import FlowIR.Proofs.Graph.Preorder

/-!
# What escapes

Memory escapes if a way along stored pointers leads to it from memory that is exposed: a parameter,
a global, or what a return gives away. All three are told by the pieces of an escape graph once the
kind of a node is that of its value. So a graph with more pieces lets more escape, and the union of
two graphs lets escape what either of them does.
-/
namespace FlowIR

namespace EscapeGraph

/-- The memory can be reached from outside without going through other memory. -/
inductive Exposed (escape : EscapeGraph) (id : ValueId) : Prop
  | parameter (labelled : escape.graph.label? id = some .parameter)
  | global (labelled : escape.graph.label? id = some .global)
  | returned (listed : id ∈ escape.returned) (member : id ∈ escape.graph)

section

variable {escape : EscapeGraph} {id : ValueId}

private theorem exposed_iff :
    escape.Exposed id ↔ id ∈ escape.exposed ∧ id ∈ escape.graph := by
  have listed : id ∈ escape.exposed ↔
      (∃ kind, escape.graph.label? id = some kind ∧ kind ≠ .object) ∨ id ∈ escape.returned := by
    simp [exposed, Graph.mem_nodes]
  rw [listed, Graph.mem_iff_label?]
  -- A traversal skips starting points outside of the graph, so returned values that are no nodes do
  -- not count.
  constructor
  · intro is_exposed
    cases is_exposed with
    | parameter labelled => exact ⟨Or.inl ⟨_, labelled, nofun⟩, _, labelled⟩
    | global labelled => exact ⟨Or.inl ⟨_, labelled, nofun⟩, _, labelled⟩
    | returned is_returned member => exact ⟨Or.inr is_returned, Graph.mem_iff_label?.mp member⟩
  · rintro ⟨⟨kind, labelled, outside⟩ | is_returned, member⟩
    · cases kind with
      | parameter => exact .parameter labelled
      | global => exact .global labelled
      | object => exact absurd rfl outside
    · exact .returned is_returned (Graph.mem_iff_label?.mpr member)

private theorem escapes_iff (built : escape.graph.Built) :
    escape.escapes id = true ↔
      ∃ start, escape.Exposed start ∧ Relation.ReflTransGen escape.graph.HasEdge start id := by
  rw [escapes, decide_eq_true_eq, escaping, Graph.mem_preorder built.coherent]
  simp only [Graph.ReachedFrom, Graph.reaches_iff built.coherent, exposed_iff, and_assoc]

/-- What escapes is a node, since a way that starts in the graph never leaves it. -/
theorem mem_of_escapes (built : escape.graph.Built) (escapes : escape.escapes id = true) :
    id ∈ escape.graph := by
  obtain ⟨start, is_exposed, way⟩ := (escapes_iff built).mp escapes
  obtain ⟨path, walk⟩ := (Graph.reaches_iff built.coherent).mpr ⟨(exposed_iff.mp is_exposed).2, way⟩
  exact walk.last_mem_graph

private theorem mem_escapingObjects :
    id ∈ escape.escapingObjects ↔
      escape.graph.label? id = some .object ∧ escape.escapes id = true := by
  simp [escapingObjects, escapes, Graph.mem_nodes]

private theorem pairwise_lt_escapingObjects (escape : EscapeGraph) :
    escape.escapingObjects.Pairwise (· < ·) := by
  have listed : escape.escapingObjects.Sublist escape.graph.ids := by
    rw [← Graph.map_fst_nodes]
    exact List.filter_sublist.map Prod.fst
  exact (Graph.pairwise_lt_ids escape.graph).sublist listed

end

end EscapeGraph

namespace Escape

variable {module : Module} {a b : EscapeGraph}

/-- The kind of a node is that of its value. This is all of `Consistent` that matters for what
escapes. -/
structure Kinded (module : Module) (escape : EscapeGraph) : Prop where
  built : escape.graph.Built
  kinds : ∀ id kind, escape.graph.label? id = some kind → module.memory? id = some kind

private theorem Consistent.kinded (consistent : Consistent module a) : Kinded module a :=
  ⟨consistent.built, consistent.kinds⟩

namespace Kinded

private theorem label?_eq (kinded : Kinded module a) {id : ValueId} (member : id ∈ a.graph) :
    a.graph.label? id = module.memory? id := by
  obtain ⟨kind, labelled⟩ := Graph.mem_iff_label?.mp member
  rw [labelled, kinded.kinds id kind labelled]

private theorem meet (left : Kinded module a) (right : Kinded module b) :
    Kinded module (a.meet b) where
  built := left.built.merge right.built
  kinds := by
    intro id kind labelled
    -- The label of the left graph wins, but the value has one kind only.
    rw [EscapeGraph.meet, Graph.label?_merge, Option.or_eq_some_iff] at labelled
    rcases labelled with on_left | ⟨_, on_right⟩
    · exact left.kinds id kind on_left
    · exact right.kinds id kind on_right

section

variable (more : Kinded module a) (fewer : Kinded module b)
  (includes : ∀ piece, b.Has piece → a.Has piece)
include more fewer includes

/-- Without kinds from the values a parameter of one graph might be an object of the other one. -/
theorem label?_of_includes {id : ValueId} {kind : MemoryKind}
    (labelled : b.graph.label? id = some kind) :
    a.graph.label? id = some kind := by
  have member : id ∈ b.graph := Graph.mem_iff_label?.mpr ⟨kind, labelled⟩
  rw [more.label?_eq (includes (.memory id) member), fewer.kinds id kind labelled]

private theorem exposed_of_includes {id : ValueId} (is_exposed : b.Exposed id) : a.Exposed id := by
  cases is_exposed with
  | parameter labelled => exact .parameter (more.label?_of_includes fewer includes labelled)
  | global labelled => exact .global (more.label?_of_includes fewer includes labelled)
  | returned is_returned member =>
    exact .returned (includes (.returned id) is_returned) (includes (.memory id) member)

/-- Every way of the smaller graph is a way of the larger one, and starts at exposed memory there,
too. -/
theorem escapes_of_includes {id : ValueId} (escapes : b.escapes id = true) :
    a.escapes id = true := by
  obtain ⟨start, is_exposed, way⟩ := (EscapeGraph.escapes_iff fewer.built).mp escapes
  refine (EscapeGraph.escapes_iff more.built).mpr
    ⟨start, more.exposed_of_includes fewer includes is_exposed, ?_⟩
  exact Relation.ReflTransGen.mono
    (fun source target joined => includes (.pointer source target) joined) _ _ way

end

end Kinded

/-- Memory escapes exactly if it is a node to which a way of any length leads from a parameter, a
global or a returned node, and the objects among it are listed by increasing number. Among graphs
whose nodes have the kinds of their values, what escapes grows downwards in the order, and a meet
lets escape all that either side does. -/
theorem escapes_exact :
    (∀ escape : EscapeGraph, escape.graph.Built →
      (∀ id, escape.escapes id = true ↔ id ∈ escape.graph ∧
        ∃ start, (escape.graph.label? start = some .parameter ∨
          escape.graph.label? start = some .global ∨
            start ∈ escape.returned ∧ start ∈ escape.graph) ∧
          Relation.ReflTransGen escape.graph.HasEdge start id) ∧
      escape.escapingObjects.Pairwise (· < ·) ∧
      ∀ id, id ∈ escape.escapingObjects ↔
        escape.graph.label? id = some .object ∧ escape.escapes id = true) ∧
    ∀ (module : Module) (a b : EscapeGraph), Kinded module a → Kinded module b →
      (EscapeGraph.domain.lessOrEqual a b = true → ∀ id, b.escapes id = true →
        a.escapes id = true) ∧
      ∀ id, a.escapes id = true ∨ b.escapes id = true →
        (EscapeGraph.domain.meet a b).escapes id = true := by
  constructor
  · intro escape built
    refine ⟨fun id => ?_, escape.pairwise_lt_escapingObjects,
      fun id => EscapeGraph.mem_escapingObjects⟩
    constructor
    · intro escapes
      obtain ⟨start, is_exposed, way⟩ := (EscapeGraph.escapes_iff built).mp escapes
      refine ⟨EscapeGraph.mem_of_escapes built escapes, start, ?_, way⟩
      cases is_exposed with
      | parameter labelled => exact Or.inl labelled
      | global labelled => exact Or.inr (Or.inl labelled)
      | returned is_returned member => exact Or.inr (Or.inr ⟨is_returned, member⟩)
    · rintro ⟨_, start, labelled | labelled | ⟨is_returned, member⟩, way⟩
      · exact (EscapeGraph.escapes_iff built).mpr ⟨start, .parameter labelled, way⟩
      · exact (EscapeGraph.escapes_iff built).mpr ⟨start, .global labelled, way⟩
      · exact (EscapeGraph.escapes_iff built).mpr ⟨start, .returned is_returned member, way⟩
  · intro module a b left right
    -- A smaller graph has more pieces, and a meet has the pieces of both sides.
    constructor
    · exact fun below id => left.escapes_of_includes right (EscapeGraph.has_of_lessOrEqual below)
    · rintro id (on_left | on_right)
      · exact (left.meet right).escapes_of_includes left
          (fun _ has => EscapeGraph.has_meet.mpr (Or.inl has)) on_left
      · exact (left.meet right).escapes_of_includes right
          (fun _ has => EscapeGraph.has_meet.mpr (Or.inr has)) on_right

/-- A pointer to an allocation is stored into the argument of the function. -/
def handedOut : EscapeGraph :=
  ((EscapeGraph.empty.addMemory 1 .parameter).addMemory 6 .object).addPointer 1 6
    MemoryKind.parameter.storeKind

/-- A pointer to a second allocation is stored into the first one. -/
def tuckedAway : EscapeGraph :=
  ((EscapeGraph.empty.addMemory 6 .object).addMemory 13 .object).addPointer 6 13
    MemoryKind.object.storeKind

/-- Neither graph lets the second allocation escape. Both together do. -/
theorem handedOut_escapes :
    Kinded endless handedOut ∧ Kinded endless tuckedAway ∧
      handedOut.escapes 13 = false ∧ tuckedAway.escapes 13 = false ∧ handedOut.escapes 6 = true ∧
      EscapeGraph.domain.lessOrEqual (EscapeGraph.domain.meet handedOut tuckedAway) handedOut =
        true ∧
      (EscapeGraph.domain.meet handedOut tuckedAway).escapes 6 = true ∧
      (EscapeGraph.domain.meet handedOut tuckedAway).escapes 13 = true ∧
      (EscapeGraph.domain.meet handedOut tuckedAway).escapingObjects.Pairwise (· < ·) := by
  have empty := Consistent.empty endless
  have left : Consistent endless handedOut :=
    ((empty.addMemory rfl).addMemory rfl).addPointer rfl (by decide) (by decide)
  have right : Consistent endless tuckedAway :=
    ((empty.addMemory rfl).addMemory rfl).addPointer rfl (by decide) (by decide)
  have both := left.meet right
  obtain ⟨exact_left, _⟩ := escapes_exact.1 handedOut left.built
  obtain ⟨exact_both, sorted, _⟩ :=
    escapes_exact.1 (EscapeGraph.domain.meet handedOut tuckedAway) both.built
  have below : EscapeGraph.domain.lessOrEqual (EscapeGraph.domain.meet handedOut tuckedAway)
      handedOut = true := by
    decide +kernel
  have grows := (escapes_exact.2 endless _ handedOut both.kinded left.kinded).1 below
  have outer : (EscapeGraph.domain.meet handedOut tuckedAway).graph.HasEdge 1 6 :=
    ⟨.external, by decide⟩
  have inner : (EscapeGraph.domain.meet handedOut tuckedAway).graph.HasEdge 6 13 :=
    ⟨.internal, by decide⟩
  have first_escapes : handedOut.escapes 6 = true :=
    (exact_left 6).mpr ⟨by decide, 1, Or.inl (by decide), .single ⟨.external, by decide⟩⟩
  have second_escapes : (EscapeGraph.domain.meet handedOut tuckedAway).escapes 13 = true :=
    (exact_both 13).mpr ⟨by decide, 1, Or.inl (by decide), .tail (.single outer) inner⟩
  exact ⟨left.kinded, right.kinded, by decide +kernel, by decide +kernel, first_escapes, below,
    grows 6 first_escapes, second_escapes, sorted⟩

/-- Where two graphs disagree about the kind of a value, what escapes does not grow downwards. -/
example :
    let lower := EscapeGraph.empty.addMemory 0 .object
    let upper := EscapeGraph.empty.addMemory 0 .parameter
    EscapeGraph.domain.lessOrEqual lower upper = true ∧ upper.escapes 0 = true ∧
        lower.escapes 0 = false := by
  decide +kernel

end Escape

end FlowIR
