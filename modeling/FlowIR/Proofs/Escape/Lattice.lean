import FlowIR.Proofs.Dataflow.GreatestSolution
import FlowIR.Proofs.Escape.Coherence

/-!
# The lattice of escape graphs

The union of two graphs keeps the labels of the left one, so in general it matters which graph is
the left one. It does not matter for the graphs of one module: the kind of a node is that of its
value, and the label of an edge follows from the kind of its source. Such a graph is determined by
its pieces, and a union has the pieces of both graphs. An instruction adds the same pieces to every
graph, whatever is in it already, and this is why it is monotone and never lifts a graph.
-/
namespace FlowIR

/-! ### Pieces of escape graphs -/

namespace EscapeGraph

inductive Piece where
  | memory (id : ValueId)
  | pointer (target source : ValueId)
  /-- The memory has an entry among the call sites, be it an empty one. -/
  | called (id : ValueId)
  | callSite (id call : ValueId)
  | returned (id : ValueId)

def Has (escape : EscapeGraph) : Piece → Prop
  | .memory id => id ∈ escape.graph
  | .pointer target source => escape.graph.HasEdge target source
  | .called id => id ∈ escape.callSites
  | .callSite id call => call ∈ escape.callSites[id]?.getD ∅
  | .returned id => id ∈ escape.returned

variable {a b escape : EscapeGraph} {piece : Piece}

private theorem not_has_empty (piece : Piece) : ¬ empty.Has piece := by
  cases piece <;> simp [Has, empty, Graph.not_mem_empty, Graph.HasEdge, Graph.edgeLabels]

private theorem has_addMemory {id : ValueId} {kind : MemoryKind} :
    (escape.addMemory id kind).Has piece ↔ escape.Has piece ∨ piece = .memory id := by
  cases piece with
  | memory other => simp [Has, mem_addMemory, or_comm]
  | pointer => simp [Has, Escape.addMemory_eq, Graph.HasEdge, Graph.edgeLabels_insertMissing]
  | _ => simp [Has, Escape.addMemory_eq]

private theorem has_addPointer {target source : ValueId} {kind : StoreKind}
    (target_mem : target ∈ escape.graph) :
    (escape.addPointer target source kind).Has piece ↔
      escape.Has piece ∨ piece = .pointer target source := by
  have edges : ∀ first second label,
      label ∈ (escape.graph.addMissing ⟨target, source, kind⟩).edgeLabels first second ↔
        label ∈ escape.graph.edgeLabels first second ∨
          (⟨target, source, kind⟩ : Graph.Edge StoreKind) = ⟨first, second, label⟩ := fun _ _ _ =>
    Graph.mem_edgeLabels_addMissing target_mem
  rw [Escape.addPointer_eq]
  cases piece with
  | memory => simp [Has, Graph.mem_addMissing]
  | pointer first second =>
    simp only [Has, Graph.HasEdge, edges, Graph.Edge.mk.injEq, exists_or, Piece.pointer.injEq]
    simp [eq_comm]
  | _ => simp [Has]

private theorem has_addCallSite {object call : ValueId} :
    (escape.addCallSite object call).Has piece ↔
      escape.Has piece ∨ piece = .called object ∨ piece = .callSite object call := by
  cases piece with
  | called id =>
    by_cases here : object = id
    · simp [Has, addCallSite, here]
    · simp [Has, addCallSite, Std.ExtTreeMap.mem_alter, here, Ne.symm here]
  | callSite id other =>
    by_cases here : object = id
    · subst here
      simp [Has, addCallSite, @eq_comm _ call, or_comm]
    · simp [Has, addCallSite, Std.ExtTreeMap.getElem?_alter, here, Ne.symm here]
  | _ => simp [Has, addCallSite]

private theorem has_addReturned {id : ValueId} :
    (escape.addReturned id).Has piece ↔ escape.Has piece ∨ piece = .returned id := by
  cases piece with
  | returned other => simp [Has, addReturned, @eq_comm _ id, or_comm]
  | _ => simp [Has, addReturned]

theorem has_meet : (a.meet b).Has piece ↔ a.Has piece ∨ b.Has piece := by
  cases piece with
  | memory => exact Escape.mem_meet a b
  | pointer => simp [Has, meet, Graph.HasEdge, Graph.mem_edgeLabels_merge, exists_or]
  | called id =>
    simp only [Has, Std.ExtTreeMap.mem_iff_isSome_getElem?, Escape.getElem?_callSites_meet]
    cases a.callSites[id]? <;> cases b.callSites[id]? <;> simp
  | callSite id call =>
    simp only [Has, Escape.getElem?_callSites_meet]
    cases a.callSites[id]? <;> cases b.callSites[id]? <;> simp
  | returned => exact Std.ExtTreeSet.mem_union_iff

/-- A lower graph has all pieces of a higher one. -/
theorem has_of_lessOrEqual (below : domain.lessOrEqual a b = true) (piece : Piece)
    (has : b.Has piece) : a.Has piece := by
  have both : (a.meet b).Has piece := has_meet.mpr (Or.inr has)
  rwa [show a.meet b = a from MeetDomain.lessOrEqual_iff.mp below] at both

end EscapeGraph

namespace Escape

variable {module : Module} {a b c escape : EscapeGraph}

/-! ### Graphs of a module -/

/-- The graph is made by the operations of graphs and fits the module: kinds of nodes are those of
their values, two nodes are joined by one edge at most, which is internal exactly if its source is
an object, and what is returned is a node. -/
structure Consistent (module : Module) (escape : EscapeGraph) : Prop where
  built : escape.graph.Built
  kinds : ∀ id kind, escape.graph.label? id = some kind → module.memory? id = some kind
  single : ∀ source target, (escape.graph.edgeLabels source target).length ≤ 1
  internal : ∀ source target label, label ∈ escape.graph.edgeLabels source target →
    (label = .internal ↔ escape.graph.label? source = some .object)
  returned : ∀ id ∈ escape.returned, id ∈ escape.graph

private theorem internal_iff_storeKind {label : StoreKind} {kind : MemoryKind} :
    (label = .internal ↔ kind = .object) ↔ label = kind.storeKind := by
  cases label <;> cases kind <;> simp [MemoryKind.storeKind]

namespace Consistent

private theorem label?_eq (consistent : Consistent module escape) {id : ValueId}
    (member : id ∈ escape.graph) :
    escape.graph.label? id = module.memory? id := by
  obtain ⟨kind, labelled⟩ := Graph.mem_iff_label?.mp member
  rw [labelled, consistent.kinds id kind labelled]

/-- The label of an edge follows from the kind of the value at its source. -/
theorem storeKind (consistent : Consistent module escape) {source target : ValueId}
    {label : StoreKind} (listed : label ∈ escape.graph.edgeLabels source target) :
    (module.memory? source).map MemoryKind.storeKind = some label := by
  have joined : escape.graph.HasEdge source target := ⟨label, listed⟩
  obtain ⟨kind, labelled⟩ := Graph.mem_iff_label?.mp joined.source_mem
  have internal := consistent.internal source target label listed
  rw [labelled, Option.some.injEq, internal_iff_storeKind] at internal
  rw [consistent.kinds source kind labelled, Option.map_some, internal]

private theorem nodup (consistent : Consistent module escape) (source target : ValueId) :
    (escape.graph.edgeLabels source target).Nodup := by
  have single := consistent.single source target
  match labels : escape.graph.edgeLabels source target with
  | [] => exact List.nodup_nil
  | [label] => exact List.nodup_singleton label
  | _ :: _ :: _ => simp [labels] at single

/-- Labels of edges that follow from the kinds of the values, none of them there twice, are at most
one for each pair of nodes. -/
theorem of_storeKind (built : escape.graph.Built)
    (kinds : ∀ id kind, escape.graph.label? id = some kind → module.memory? id = some kind)
    (distinct : ∀ source target, (escape.graph.edgeLabels source target).Nodup)
    (storeKind : ∀ source target label, label ∈ escape.graph.edgeLabels source target →
      (module.memory? source).map MemoryKind.storeKind = some label)
    (returned : ∀ id ∈ escape.returned, id ∈ escape.graph) : Consistent module escape where
  built := built
  kinds := kinds
  single := by
    intro source target
    have different := distinct source target
    have follows := storeKind source target
    match labels : escape.graph.edgeLabels source target with
    | [] => exact Nat.zero_le 1
    | [_] => exact Nat.le_refl 1
    | first :: second :: _ =>
      -- Two labels would both follow from the kind of the source, and so be the same.
      rw [labels] at different follows
      have same : some first = some second :=
        (follows first (by simp)).symm.trans (follows second (by simp))
      simp [Option.some.inj same] at different
  internal := by
    intro source target label listed
    have joined : escape.graph.HasEdge source target := ⟨label, listed⟩
    obtain ⟨kind, labelled⟩ := Graph.mem_iff_label?.mp joined.source_mem
    have follows := storeKind source target label listed
    rw [kinds source kind labelled, Option.map_some, Option.some.injEq] at follows
    rw [labelled, Option.some.injEq, internal_iff_storeKind, follows]
  returned := returned

private theorem edgeLabels_eq (consistent : Consistent module escape) {source target : ValueId}
    (joined : escape.graph.HasEdge source target) :
    escape.graph.edgeLabels source target =
      ((module.memory? source).map MemoryKind.storeKind).toList := by
  obtain ⟨label, listed⟩ := joined
  have single := consistent.single source target
  rw [consistent.storeKind listed, Option.toList_some]
  match labels : escape.graph.edgeLabels source target with
  | [] => simp [labels] at listed
  | [other] => simpa [labels, eq_comm] using listed
  | _ :: _ :: _ => simp [labels] at single

private theorem edgeLabels_congr (left : Consistent module a) (right : Consistent module b)
    {source target : ValueId}
    (same : a.graph.HasEdge source target ↔ b.graph.HasEdge source target) :
    a.graph.edgeLabels source target = b.graph.edgeLabels source target := by
  by_cases joined : a.graph.HasEdge source target
  · rw [left.edgeLabels_eq joined, right.edgeLabels_eq (same.mp joined)]
  · have none_left : a.graph.edgeLabels source target = [] :=
      List.eq_nil_iff_forall_not_mem.mpr fun label listed => joined ⟨label, listed⟩
    have none_right : b.graph.edgeLabels source target = [] :=
      List.eq_nil_iff_forall_not_mem.mpr fun label listed => joined (same.mpr ⟨label, listed⟩)
    rw [none_left, none_right]

/-- A graph of the module is determined by its pieces. -/
theorem eq_of_pieces (left : Consistent module a) (right : Consistent module b)
    (same : ∀ piece, a.Has piece ↔ b.Has piece) : a = b := by
  have graphs : a.graph = b.graph := by
    apply left.built.coherent.eq_of_labels right.built.coherent
    · intro id
      by_cases member : id ∈ a.graph
      · rw [left.label?_eq member, right.label?_eq ((same (.memory id)).mp member)]
      · have absent : id ∉ b.graph := fun other => member ((same (.memory id)).mpr other)
        rw [Graph.label?_of_not_mem member, Graph.label?_of_not_mem absent]
    · exact fun source target => left.edgeLabels_congr right (same (.pointer source target))
  have calls : a.callSites = b.callSites := by
    apply Std.ExtTreeMap.ext_getElem?
    intro id
    have called : id ∈ a.callSites ↔ id ∈ b.callSites := same (.called id)
    have sites : a.callSites[id]?.getD ∅ = b.callSites[id]?.getD ∅ :=
      Std.ExtTreeSet.ext_mem fun call => same (.callSite id call)
    rw [Std.ExtTreeMap.mem_iff_isSome_getElem?, Std.ExtTreeMap.mem_iff_isSome_getElem?] at called
    -- Either both have an entry, and then it is the same set, or none of them has.
    cases on_left : a.callSites[id]? <;> cases on_right : b.callSites[id]? <;> simp_all
  have returned : a.returned = b.returned := Std.ExtTreeSet.ext_mem fun id => same (.returned id)
  cases a
  cases b
  simp_all

/-! ### Every change keeps it -/

theorem empty (module : Module) : Consistent module EscapeGraph.empty where
  built := .empty
  kinds := by
    intro id kind
    have unlabelled :=
      Graph.label?_of_not_mem (Graph.not_mem_empty (N := MemoryKind) (E := StoreKind) id)
    simp [EscapeGraph.empty, unlabelled]
  single := by simp [EscapeGraph.empty, Graph.edgeLabels]
  internal := by simp [EscapeGraph.empty, Graph.edgeLabels]
  returned := by simp [EscapeGraph.empty]

theorem addMemory (consistent : Consistent module escape) {id : ValueId} {kind : MemoryKind}
    (known : module.memory? id = some kind) : Consistent module (escape.addMemory id kind) := by
  have kept : ∀ other ∈ escape.graph, other ∈ (escape.addMemory id kind).graph :=
    fun other old => EscapeGraph.mem_addMemory.mpr (Or.inr old)
  rw [addMemory_eq] at kept ⊢
  refine of_storeKind ?_ ?_ ?_ ?_ fun other returned =>
    kept other (consistent.returned other returned)
  · dsimp only [Graph.insertMissing]
    split
    · exact consistent.built
    · exact consistent.built.insertNode id kind
  · intro other other_kind labelled
    rw [Graph.label?_insertMissing, Option.or_eq_some_iff] at labelled
    rcases labelled with old | ⟨_, new⟩
    · exact consistent.kinds other other_kind old
    · split at new
      next here => rw [← here, known, new]
      next => cases new
  · intro source target
    rw [Graph.edgeLabels_insertMissing]
    exact consistent.nodup source target
  · intro source target label listed
    rw [Graph.edgeLabels_insertMissing] at listed
    exact consistent.storeKind listed

theorem addPointer (consistent : Consistent module escape) {target source : ValueId}
    {kind : MemoryKind} (known : module.memory? target = some kind)
    (target_mem : target ∈ escape.graph) (source_mem : source ∈ escape.graph) :
    Consistent module (escape.addPointer target source kind.storeKind) := by
  rw [addPointer_eq]
  refine of_storeKind ?_ ?_ ?_ ?_ ?_
  · dsimp only [Graph.addMissing]
    split
    · exact consistent.built
    · exact consistent.built.addEdge target source _ target_mem source_mem
  · intro id other_kind labelled
    rw [Graph.label?_addMissing] at labelled
    exact consistent.kinds id other_kind labelled
  · exact fun first second =>
      Graph.nodup_edgeLabels_addMissing target_mem (consistent.nodup first second)
  · intro first second label listed
    rcases (Graph.mem_edgeLabels_addMissing target_mem).mp listed with old | new
    · exact consistent.storeKind old
    · cases new
      rw [known, Option.map_some]
  · exact fun id returned => Graph.mem_addMissing.mpr (consistent.returned id returned)

private theorem addCallSite (consistent : Consistent module escape) (object call : ValueId) :
    Consistent module (escape.addCallSite object call) := { consistent with }

private theorem addReturned (consistent : Consistent module escape) {id : ValueId}
    (member : id ∈ escape.graph) :
    Consistent module (escape.addReturned id) := by
  refine { consistent with returned := fun other returned => ?_ }
  rcases Std.ExtTreeSet.mem_insert.mp returned with here | old
  · exact Nat.compare_eq_eq.mp here ▸ member
  · exact consistent.returned other old

theorem meet (left : Consistent module a) (right : Consistent module b) :
    Consistent module (a.meet b) := by
  refine of_storeKind (left.built.merge right.built) ?_ ?_ ?_ ?_
  · intro id kind labelled
    rw [EscapeGraph.meet, Graph.label?_merge, Option.or_eq_some_iff] at labelled
    rcases labelled with on_left | ⟨_, on_right⟩
    · exact left.kinds id kind on_left
    · exact right.kinds id kind on_right
  · exact fun source target => Graph.nodup_edgeLabels_merge (left.nodup source target)
  · intro source target label listed
    rcases Graph.mem_edgeLabels_merge.mp listed with on_left | on_right
    · exact left.storeKind on_left
    · exact right.storeKind on_right
  · intro id returned
    rw [mem_meet]
    exact (Std.ExtTreeSet.mem_union_iff.mp returned).imp (left.returned id) (right.returned id)

end Consistent

/-! ### The meet -/

private theorem meet_self (consistent : Consistent module a) : a.meet a = a :=
  (consistent.meet consistent).eq_of_pieces consistent fun _ => by
    rw [EscapeGraph.has_meet, or_self]

private theorem meet_comm (left : Consistent module a) (right : Consistent module b) :
    a.meet b = b.meet a :=
  (left.meet right).eq_of_pieces (right.meet left) fun _ => by
    rw [EscapeGraph.has_meet, EscapeGraph.has_meet, or_comm]

private theorem meet_assoc (left : Consistent module a) (middle : Consistent module b)
    (right : Consistent module c) :
    a.meet (b.meet c) = (a.meet b).meet c :=
  (left.meet (middle.meet right)).eq_of_pieces ((left.meet middle).meet right) fun _ => by
    simp only [EscapeGraph.has_meet, or_assoc]

private theorem empty_meet (consistent : Consistent module a) : EscapeGraph.empty.meet a = a :=
  ((Consistent.empty module).meet consistent).eq_of_pieces consistent fun piece => by
    simp only [EscapeGraph.has_meet, EscapeGraph.not_has_empty, false_or]

/-- The order is that of the pieces: less is lower. -/
theorem lessOrEqual_iff (left : Consistent module a) (right : Consistent module b) :
    EscapeGraph.domain.lessOrEqual a b = true ↔ ∀ piece, b.Has piece → a.Has piece := by
  constructor
  · exact EscapeGraph.has_of_lessOrEqual
  · intro includes
    rw [MeetDomain.lessOrEqual_iff]
    apply (left.meet right).eq_of_pieces left
    intro piece
    rw [EscapeGraph.has_meet]
    exact ⟨fun either => either.elim (fun has => has) (includes piece), Or.inl⟩

/-! ### Instructions -/

/-- The change adds these pieces to every graph of the module, and nothing else. -/
structure Adds (module : Module) (change : EscapeGraph → EscapeGraph)
    (pieces : Set EscapeGraph.Piece) : Prop where
  consistent : ∀ escape, Consistent module escape → Consistent module (change escape)
  has : ∀ escape, Consistent module escape → ∀ piece,
    (change escape).Has piece ↔ escape.Has piece ∨ piece ∈ pieces

private theorem adds_nothing (module : Module) : Adds module (fun escape => escape) ∅ :=
  ⟨fun _ consistent => consistent, fun _ _ _ => by simp⟩

section

variable {memory target source : ValueId} {kind targetKind sourceKind : MemoryKind}

private theorem adds_memory (known : module.memory? memory = some kind) :
    Adds module (fun escape => escape.addMemory memory kind) {.memory memory} :=
  ⟨fun _ consistent => consistent.addMemory known, fun _ _ _ => EscapeGraph.has_addMemory⟩

private theorem adds_call (known : module.memory? memory = some kind) :
    Adds module (fun escape => (escape.addMemory memory kind).addCallSite memory memory)
      {.memory memory, .called memory, .callSite memory memory} where
  consistent := fun _ consistent => (consistent.addMemory known).addCallSite memory memory
  has := by
    intro escape _ piece
    rw [EscapeGraph.has_addCallSite, EscapeGraph.has_addMemory, or_assoc]
    rfl

private theorem adds_returned (known : module.memory? memory = some kind) :
    Adds module (fun escape => (escape.addMemory memory kind).addReturned memory)
      {.memory memory, .returned memory} where
  consistent := by
    intro escape consistent
    exact (consistent.addMemory known).addReturned (EscapeGraph.mem_addMemory.mpr (Or.inl rfl))
  has := by
    intro escape _ piece
    rw [EscapeGraph.has_addReturned, EscapeGraph.has_addMemory, or_assoc]
    rfl

private theorem adds_pointer (target_known : module.memory? target = some targetKind)
    (source_known : module.memory? source = some sourceKind) :
    Adds module (fun escape =>
      ((escape.addMemory target targetKind).addMemory source sourceKind).addPointer target source
        targetKind.storeKind)
      {.memory target, .memory source, .pointer target source} where
  consistent := by
    intro escape consistent
    obtain ⟨target_mem, source_mem⟩ := escape.stored_mem target source targetKind sourceKind
    exact ((consistent.addMemory target_known).addMemory source_known).addPointer target_known
      target_mem source_mem
  has := by
    intro escape _ piece
    obtain ⟨target_mem, _⟩ := escape.stored_mem target source targetKind sourceKind
    rw [EscapeGraph.has_addPointer target_mem, EscapeGraph.has_addMemory, EscapeGraph.has_addMemory,
      or_assoc, or_assoc]
    rfl

end

/-- What an instruction adds does not depend on the graph that it is added to. -/
theorem exists_adds (module : Module) (id : ValueId) :
    ∃ pieces, Adds module (fun before => transfer module before id) pieces := by
  -- Calls and invocations count as allocations if they result in a pointer.
  have allocated (known : module.memory? id = some .object) :
      ∃ pieces, Adds module (transfer.allocated module id) pieces := by
    by_cases pointer : module.isPointer id = true
    · have called : transfer.allocated module id = fun before =>
          (before.addMemory id .object).addCallSite id id := funext fun before => if_pos pointer
      exact called ▸ ⟨_, adds_call known⟩
    · have unchanged : transfer.allocated module id = fun before => before :=
        funext fun before => if_neg pointer
      exact unchanged ▸ ⟨_, adds_nothing module⟩
  cases found : module.instruction? id with
  | none => exact ⟨_, by simpa [transfer, found] using adds_nothing module⟩
  | some instruction =>
    cases instruction with
    | alloca count align =>
      have known : module.memory? id = some .object := memory?_of_instruction found rfl
      exact ⟨_, by simpa [transfer, found] using adds_memory known⟩
    | call site =>
      simpa [transfer, found] using allocated (memory?_of_instruction found rfl)
    | invoke site normalBlock unwindBlock =>
      simpa [transfer, found] using allocated (memory?_of_instruction found rfl)
    | store value address isVolatile align addrSpace =>
      cases into : pointee? module address with
      | none => exact ⟨_, by simpa [transfer, found, into] using adds_nothing module⟩
      | some target =>
        cases stored : pointee? module value with
        | none => exact ⟨_, by simpa [transfer, found, into, stored] using adds_nothing module⟩
        | some source =>
          have added := adds_pointer (memory?_of_pointee? into) (memory?_of_pointee? stored)
          exact ⟨_, by simpa [transfer, found, into, stored] using added⟩
    | ret value =>
      cases value with
      | none => exact ⟨_, by simpa [transfer, found] using adds_nothing module⟩
      | some value =>
        cases refers : pointee? module value with
        | none => exact ⟨_, by simpa [transfer, found, refers] using adds_nothing module⟩
        | some memory =>
          have added := adds_returned (memory?_of_pointee? refers)
          exact ⟨_, by simpa [transfer, found, refers] using added⟩
    | _ => exact ⟨_, by simpa [transfer, found] using adds_nothing module⟩

private theorem transfer_mono (left : Consistent module a) (right : Consistent module b)
    (below : EscapeGraph.domain.lessOrEqual a b = true) (id : ValueId) :
    EscapeGraph.domain.lessOrEqual (transfer module a id) (transfer module b id) = true := by
  obtain ⟨pieces, adds⟩ := exists_adds module id
  rw [lessOrEqual_iff left right] at below
  rw [lessOrEqual_iff (adds.consistent a left) (adds.consistent b right)]
  intro piece has
  rw [adds.has b right] at has
  rw [adds.has a left]
  exact has.imp_left (below piece)

private theorem transfer_le (consistent : Consistent module a) (id : ValueId) :
    EscapeGraph.domain.lessOrEqual (transfer module a id) a = true := by
  obtain ⟨pieces, adds⟩ := exists_adds module id
  rw [lessOrEqual_iff (adds.consistent a consistent) consistent]
  intro piece has
  exact (adds.has a consistent piece).mpr (Or.inl has)

/-- Among the graphs of a module the meet obeys all laws of a semilattice with the empty graph at
its top, although the union of labelled graphs does not in general. Instructions lead from such
graphs to such graphs, keep their order and never lift them. -/
theorem consistent_semilattice (module : Module) :
    Consistent module EscapeGraph.domain.top ∧
      (∀ a b, Consistent module a → Consistent module b →
        Consistent module (EscapeGraph.domain.meet a b)) ∧
      (∀ a id, Consistent module a → Consistent module (transfer module a id)) ∧
      (∀ a, Consistent module a → EscapeGraph.domain.meet a a = a) ∧
      (∀ a b, Consistent module a → Consistent module b →
        EscapeGraph.domain.meet a b = EscapeGraph.domain.meet b a) ∧
      (∀ a b c, Consistent module a → Consistent module b → Consistent module c →
        EscapeGraph.domain.meet a (EscapeGraph.domain.meet b c) =
          EscapeGraph.domain.meet (EscapeGraph.domain.meet a b) c) ∧
      (∀ a, Consistent module a → EscapeGraph.domain.meet EscapeGraph.domain.top a = a ∧
        EscapeGraph.domain.meet a EscapeGraph.domain.top = a) ∧
      (∀ a b id, Consistent module a → Consistent module b →
        EscapeGraph.domain.lessOrEqual a b = true →
        EscapeGraph.domain.lessOrEqual (transfer module a id) (transfer module b id) = true) ∧
      ∀ a id, Consistent module a →
        EscapeGraph.domain.lessOrEqual (transfer module a id) a = true := by
  have top := Consistent.empty module
  refine ⟨top, fun _ _ left right => left.meet right, fun a id consistent => ?_, fun _ => meet_self,
    fun _ _ => meet_comm, fun _ _ _ => meet_assoc, fun a consistent => ⟨empty_meet consistent, ?_⟩,
    fun _ _ id left right below => transfer_mono left right below id,
    fun _ id consistent => transfer_le consistent id⟩
  · obtain ⟨_, adds⟩ := exists_adds module id
    exact adds.consistent a consistent
  · exact (meet_comm consistent top).trans (empty_meet consistent)

/-- Two graphs that do not agree about the kind of a value: the left one decides. -/
example : (EscapeGraph.empty.addMemory 0 .parameter).meet (EscapeGraph.empty.addMemory 0 .global) ≠
    (EscapeGraph.empty.addMemory 0 .global).meet (EscapeGraph.empty.addMemory 0 .parameter) := by
  decide

end Escape

end FlowIR
