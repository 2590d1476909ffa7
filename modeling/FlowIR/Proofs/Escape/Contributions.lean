import FlowIR.Escape.Analysis
import FlowIR.Proofs.Dataflow.Collection
import FlowIR.Proofs.Graph.Merge
import Mathlib.Tactic.MkIffOfInductiveProp

/-!
# What instructions contribute to escape graphs

An escape graph is made of the contributions of some instructions if it holds them and nothing else.
The kind of a node is determined by its value, so it does not matter in which order the
contributions came and which of two graphs is the left one when they are put together.
-/
namespace FlowIR

/-- The kind of the memory that a value itself stands for. -/
def Module.memory? (module : Module) (id : ValueId) : Option MemoryKind :=
  (module.content? id).bind Escape.memoryKind?

namespace Escape

/-- A call that returns a pointer. It may have allocated memory. -/
def Allocates (module : Module) (id : ValueId) : Prop :=
  module.isPointer id = true ∧
    ((∃ site, module.instruction? id = some (.call site)) ∨
      ∃ site normalBlock unwindBlock,
        module.instruction? id = some (.invoke site normalBlock unwindBlock))

/-- The instruction stores a pointer to the source into the target. -/
def Stores (module : Module) (id target source : ValueId) : Prop :=
  ∃ value address isVolatile align addrSpace targetKind sourceKind,
    module.instruction? id = some (.store value address isVolatile align addrSpace) ∧
      pointee? module address = some (target, targetKind) ∧
        pointee? module value = some (source, sourceKind)

/-- The instruction returns a pointer to this memory. -/
def Returns (module : Module) (id memory : ValueId) : Prop :=
  ∃ value kind, module.instruction? id = some (.ret (some value)) ∧
    pointee? module value = some (memory, kind)

/-- The instruction makes this memory a node. -/
@[mk_iff]
inductive Names (module : Module) (id : ValueId) : ValueId → Prop
  | allocation {count : Option ValueId} {align : UInt32}
      (found : module.instruction? id = some (.alloca count align)) : Names module id id
  | call (allocates : Allocates module id) : Names module id id
  | target {target source : ValueId} (stores : Stores module id target source) :
      Names module id target
  | source {target source : ValueId} (stores : Stores module id target source) :
      Names module id source
  | returned {memory : ValueId} (returns : Returns module id memory) : Names module id memory

/-- What escape graphs are made of. Kinds are left out, since they are determined by the values. -/
@[ext]
structure Parts where
  memory : Set ValueId
  /-- Pairs of a target and a source. -/
  pointers : Set (ValueId × ValueId)
  calls : Set ValueId
  returned : Set ValueId

namespace Parts

def empty : Parts := { memory := ∅, pointers := ∅, calls := ∅, returned := ∅ }

def union (left right : Parts) : Parts :=
  { memory := left.memory ∪ right.memory
    pointers := left.pointers ∪ right.pointers
    calls := left.calls ∪ right.calls
    returned := left.returned ∪ right.returned }

def ofInstruction (module : Module) (id : ValueId) : Parts :=
  { memory := {memory | Names module id memory}
    pointers := {pair | Stores module id pair.1 pair.2}
    calls := {call | call = id ∧ Allocates module id}
    returned := {memory | Returns module id memory} }

/-- The contributions of several instructions together. -/
def ofInstructions (module : Module) (instructions : Set ValueId) : Parts :=
  { memory := {memory | ∃ id ∈ instructions, Names module id memory}
    pointers := {pair | ∃ id ∈ instructions, Stores module id pair.1 pair.2}
    calls := {id | id ∈ instructions ∧ Allocates module id}
    returned := {memory | ∃ id ∈ instructions, Returns module id memory} }

end Parts

/-- The graph holds these parts and nothing else. A node has the kind of its value, there is at most
one edge between two nodes, and a call is the only call site of the memory that it allocates. -/
structure Holds (module : Module) (parts : Parts) (escape : EscapeGraph) : Prop where
  memory : ∀ id kind, escape.graph.label? id = some kind ↔
    id ∈ parts.memory ∧ module.memory? id = some kind
  pointers : ∀ target source label, label ∈ escape.graph.edgeLabels target source ↔
    (target, source) ∈ parts.pointers ∧
      (module.memory? target).map MemoryKind.storeKind = some label
  single : ∀ target source, (escape.graph.edgeLabels target source).Nodup
  calls : ∀ id sites, escape.callSites[id]? = some sites ↔ id ∈ parts.calls ∧ sites = {id}
  returned : ∀ id, id ∈ escape.returned ↔ id ∈ parts.returned

variable {module : Module}

/-! ### Contributions -/

namespace Parts

theorem ofInstructions_empty (module : Module) : ofInstructions module ∅ = empty := by
  simp [ofInstructions, empty]

theorem ofInstructions_insert (module : Module) (id : ValueId) (instructions : Set ValueId) :
    ofInstructions module (insert id instructions) =
      (ofInstruction module id).union (ofInstructions module instructions) := by
  ext other
  case calls =>
    simp only [ofInstructions, ofInstruction, union, Set.mem_insert_iff, Set.mem_ofPred_eq,
      Set.mem_union]
    rw [or_and_right]
    exact or_congr_left (and_congr_right fun same => by rw [same])
  all_goals simp [ofInstructions, ofInstruction, union]

theorem ofInstructions_union (module : Module) (left right : Set ValueId) :
    ofInstructions module (left ∪ right) =
      (ofInstructions module left).union (ofInstructions module right) := by
  ext other
  all_goals simp [ofInstructions, union, or_and_right, exists_or]

variable {id : ValueId}

private theorem ofInstruction_alloca {count : Option ValueId} {align : UInt32}
    (found : module.instruction? id = some (.alloca count align)) :
    ofInstruction module id = { empty with memory := {id} } := by
  ext other
  all_goals simp [ofInstruction, empty, names_iff, Allocates, Stores, Returns, found]

private theorem ofInstruction_allocates (allocates : Allocates module id) :
    ofInstruction module id = { empty with memory := {id}, calls := {id} } := by
  obtain ⟨pointer, ⟨site, found⟩ | ⟨site, normalBlock, unwindBlock, found⟩⟩ := allocates
  all_goals
    ext other
    all_goals simp [ofInstruction, empty, names_iff, Allocates, Stores, Returns, found, pointer]

private theorem ofInstruction_stores {target source : ValueId}
    (stores : Stores module id target source) :
    ofInstruction module id =
      { empty with memory := {source, target}, pointers := {(target, source)} } := by
  obtain ⟨value, address, isVolatile, align, addrSpace, targetKind, sourceKind, found, into,
    stored⟩ := stores
  have unique : ∀ a b, Stores module id a b ↔ a = target ∧ b = source := by
    intro a b
    constructor
    · rintro ⟨_, _, _, _, _, _, _, also_found, other_into, other_stored⟩
      cases found.symm.trans also_found
      rw [into] at other_into
      rw [stored] at other_stored
      cases other_into
      cases other_stored
      exact ⟨rfl, rfl⟩
    · rintro ⟨rfl, rfl⟩
      exact ⟨_, _, _, _, _, _, _, found, into, stored⟩
  ext other
  case memory => simp [ofInstruction, names_iff, unique, Allocates, Returns, found, or_comm]
  case pointers => simp [ofInstruction, unique, Prod.ext_iff]
  all_goals simp [ofInstruction, empty, Allocates, Returns, found]

private theorem ofInstruction_returns {memory : ValueId} (returns : Returns module id memory) :
    ofInstruction module id = { empty with memory := {memory}, returned := {memory} } := by
  obtain ⟨value, kind, found, refers⟩ := returns
  have unique : ∀ other, Returns module id other ↔ other = memory := by
    intro other
    constructor
    · rintro ⟨_, _, also_found, also_refers⟩
      cases found.symm.trans also_found
      rw [refers] at also_refers
      cases also_refers
      rfl
    · rintro rfl
      exact ⟨_, _, found, refers⟩
  ext other
  all_goals simp [ofInstruction, empty, names_iff, unique, Allocates, Stores, found]

theorem ofInstruction_silent
    (silent : ∀ memory, ¬ Names module id memory) : ofInstruction module id = empty := by
  have no_call : ¬ Allocates module id := fun allocates => silent id (.call allocates)
  have no_store : ∀ target source, ¬ Stores module id target source := fun target source stores =>
    silent target (.target stores)
  have no_return : ∀ memory, ¬ Returns module id memory := fun memory returns =>
    silent memory (.returned returns)
  simp [ofInstruction, empty, silent, no_call, no_store, no_return]

end Parts

/-! ### The memory behind a pointer -/

private theorem memory?_of_pointeeFrom {met : List ValueId} {id memory : ValueId}
    {kind : MemoryKind} (found : pointeeFrom module met id = some (memory, kind)) :
    module.memory? memory = some kind := by
  fun_induction pointeeFrom module met id with
  | case1 => cases found
  | case2 => cases found
  | case3 met id _ value looked_up _ own =>
    obtain ⟨rfl, rfl⟩ := Prod.mk.inj (Option.some.inj found)
    simp [Module.memory?, Module.content?, Module.value?, looked_up, own]
  | case4 met id _ value _ _ base _ ih => exact ih found
  | case5 => cases found

theorem memory?_of_pointee? {id memory : ValueId} {kind : MemoryKind}
    (found : pointee? module id = some (memory, kind)) : module.memory? memory = some kind := by
  rw [pointee?] at found
  split at found
  · exact memory?_of_pointeeFrom found
  · cases found

theorem memory?_of_instruction {id : ValueId} {instruction : Instruction} {kind : MemoryKind}
    (found : module.instruction? id = some instruction)
    (own : memoryKind? (.instruction instruction) = some kind) : module.memory? id = some kind := by
  rw [Module.instruction?] at found
  split at found
  next content =>
    cases found
    rw [Module.memory?, content, Option.bind_some, own]
  · cases found

/-! ### Call sites of both graphs -/

private theorem getElem?_addCalls (callSites : Std.ExtTreeMap Nat (Std.ExtTreeSet Nat))
    (added : Nat × Std.ExtTreeSet Nat) (id : Nat) :
    (EscapeGraph.addCalls callSites added)[id]? =
      if added.1 = id then some (callSites[id]?.getD ∅ ∪ added.2) else callSites[id]? := by
  rw [EscapeGraph.addCalls, Std.ExtTreeMap.getElem?_alter]
  by_cases here : added.1 = id
  · subst here
    simp
  · simp [here]

private theorem getElem?_foldl_addCalls_of_not_mem (pairs : List (Nat × Std.ExtTreeSet Nat))
    (start : Std.ExtTreeMap Nat (Std.ExtTreeSet Nat)) {id : Nat}
    (absent : id ∉ pairs.map Prod.fst) :
    (pairs.foldl EscapeGraph.addCalls start)[id]? = start[id]? := by
  induction pairs generalizing start with
  | nil => rfl
  | cons pair rest ih =>
    simp only [List.map_cons, List.mem_cons, not_or] at absent
    rw [List.foldl_cons, ih _ absent.2, getElem?_addCalls, if_neg (Ne.symm absent.1)]

private theorem getElem?_foldl_addCalls_of_mem (pairs : List (Nat × Std.ExtTreeSet Nat compare))
    (start : Std.ExtTreeMap Nat (Std.ExtTreeSet Nat)) {added : Nat × Std.ExtTreeSet Nat compare}
    (distinct : (pairs.map Prod.fst).Nodup) (member : added ∈ pairs) :
    (pairs.foldl EscapeGraph.addCalls start)[added.1]? =
      some (start[added.1]?.getD ∅ ∪ added.2) := by
  induction pairs generalizing start with
  | nil => cases member
  | cons pair rest ih =>
    obtain ⟨fresh, rest_distinct⟩ := List.nodup_cons.mp distinct
    rw [List.foldl_cons]
    rcases List.mem_cons.mp member with rfl | later
    · rw [getElem?_foldl_addCalls_of_not_mem rest _ fresh, getElem?_addCalls, if_pos rfl]
    · -- The first pair concerns another node, since the nodes are distinct.
      have other : pair.1 ≠ added.1 :=
        fun same => fresh (List.mem_map.mpr ⟨added, later, same.symm⟩)
      rw [ih _ rest_distinct later, getElem?_addCalls, if_neg other]

theorem getElem?_callSites_meet (a b : EscapeGraph) (id : Nat) :
    (a.meet b).callSites[id]? =
      (b.callSites[id]?.map (a.callSites[id]?.getD ∅ ∪ ·)).or a.callSites[id]? := by
  cases found : b.callSites[id]? with
  | none =>
    apply getElem?_foldl_addCalls_of_not_mem
    rw [Std.ExtTreeMap.map_fst_toList_eq_keys, Std.ExtTreeMap.mem_keys,
      Std.ExtTreeMap.mem_iff_isSome_getElem?, found]
    simp
  | some others =>
    apply @getElem?_foldl_addCalls_of_mem _ _ (id, others)
    · rw [Std.ExtTreeMap.map_fst_toList_eq_keys]
      exact Std.ExtTreeMap.nodup_keys
    · exact Std.ExtTreeMap.mem_toList_iff_getElem?_eq_some.mpr found

/-! ### Nodes and edges of changed graphs -/

theorem addMemory_eq (escape : EscapeGraph) (id : ValueId) (kind : MemoryKind) :
    escape.addMemory id kind = { escape with graph := escape.graph.insertMissing (id, kind) } := by
  rw [EscapeGraph.addMemory, Graph.insertMissing]
  split <;> rfl

theorem addPointer_eq (escape : EscapeGraph) (target source : ValueId) (kind : StoreKind) :
    escape.addPointer target source kind =
      { escape with graph := escape.graph.addMissing ⟨target, source, kind⟩ } := by
  rw [EscapeGraph.addPointer, Graph.addMissing]
  split <;> rfl

theorem mem_meet (a b : EscapeGraph) {id : ValueId} :
    id ∈ (a.meet b).graph ↔ id ∈ a.graph ∨ id ∈ b.graph :=
  Graph.mem_merge

/-! ### Single changes -/

theorem holds_empty (module : Module) : Holds module .empty EscapeGraph.empty where
  memory := by
    intro id kind
    have unlabelled :=
      Graph.label?_of_not_mem (Graph.not_mem_empty (N := MemoryKind) (E := StoreKind) id)
    simp [EscapeGraph.empty, Parts.empty, unlabelled]
  pointers := by simp [EscapeGraph.empty, Parts.empty, Graph.edgeLabels]
  single := by simp [EscapeGraph.empty, Graph.edgeLabels]
  calls := by simp [EscapeGraph.empty, Parts.empty]
  returned := by simp [EscapeGraph.empty, Parts.empty]

namespace Holds

variable {parts : Parts} {escape : EscapeGraph}

private theorem addMemory (holds : Holds module parts escape) {id : ValueId} {kind : MemoryKind}
    (known : module.memory? id = some kind) :
    Holds module { parts with memory := insert id parts.memory } (escape.addMemory id kind) := by
  rw [addMemory_eq]
  refine { holds with memory := ?_, pointers := ?_, single := ?_ }
  · intro other other_kind
    rw [Graph.label?_insertMissing, Option.or_eq_some_iff, holds.memory]
    -- A node that is there already has the kind of its value, so nothing is lost by keeping it.
    have absent : escape.graph.label? other = none ∨
        other ∈ parts.memory ∧ ∃ kind, module.memory? other = some kind := by
      cases labelled : escape.graph.label? other with
      | none => exact Or.inl rfl
      | some kind =>
        obtain ⟨member, kind_known⟩ := (holds.memory other kind).mp labelled
        exact Or.inr ⟨member, kind, kind_known⟩
    by_cases here : id = other
    · subst here
      rcases absent with unlabelled | ⟨member, _⟩
      · simp only [unlabelled, known, Set.mem_insert_iff, true_or, true_and,
          Option.some.injEq, if_true]
        exact ⟨fun either => either.elim And.right fun same => same, Or.inr⟩
      · simp only [Set.mem_insert_iff, true_or, true_and, member, known, Option.some.injEq, if_true]
        exact ⟨fun either => either.elim (fun same => same) And.right, Or.inl⟩
    · simp [here, Ne.symm here]
  · intro target source label
    rw [Graph.edgeLabels_insertMissing, holds.pointers]
  · intro target source
    rw [Graph.edgeLabels_insertMissing]
    exact holds.single target source

private theorem addPointer (holds : Holds module parts escape) {target source : ValueId}
    {kind : MemoryKind} (known : module.memory? target = some kind)
    (member : target ∈ parts.memory) :
    Holds module { parts with pointers := insert (target, source) parts.pointers }
      (escape.addPointer target source kind.storeKind) := by
  have target_mem : target ∈ escape.graph :=
    Graph.mem_iff_label?.mpr ⟨kind, (holds.memory target kind).mpr ⟨member, known⟩⟩
  rw [addPointer_eq]
  refine { holds with memory := ?_, pointers := ?_, single := ?_ }
  · intro id other_kind
    rw [Graph.label?_addMissing, holds.memory]
  · intro a b label
    rw [Graph.mem_edgeLabels_addMissing target_mem, holds.pointers, Set.mem_insert_iff,
      Prod.mk.injEq, Graph.Edge.mk.injEq]
    constructor
    · rintro (⟨old, kind_known⟩ | ⟨rfl, rfl, rfl⟩)
      · exact ⟨Or.inr old, kind_known⟩
      · exact ⟨Or.inl ⟨rfl, rfl⟩, by rw [known, Option.map_some]⟩
    · rintro ⟨⟨rfl, rfl⟩ | old, kind_known⟩
      · rw [known, Option.map_some, Option.some.injEq] at kind_known
        exact Or.inr ⟨rfl, rfl, kind_known⟩
      · exact Or.inl ⟨old, kind_known⟩
  · exact fun a b => Graph.nodup_edgeLabels_addMissing target_mem (holds.single a b)

private theorem addCallSite (holds : Holds module parts escape) (id : ValueId) :
    Holds module { parts with calls := insert id parts.calls } (escape.addCallSite id id) := by
  refine { holds with calls := ?_ }
  intro other sites
  rw [EscapeGraph.addCallSite, Std.ExtTreeMap.getElem?_alter]
  by_cases here : id = other
  · subst here
    -- The call sites of the memory so far are none or this call alone.
    have old : (escape.callSites[id]?.getD ∅).insert id = {id} := by
      cases known : escape.callSites[id]? with
      | none => rfl
      | some sites =>
        rw [Option.getD_some, ((holds.calls id sites).mp known).2]
        ext call
        simp
    simp [old, eq_comm]
  · simp [here, Ne.symm here, holds.calls]

private theorem addReturned (holds : Holds module parts escape) (id : ValueId) :
    Holds module { parts with returned := insert id parts.returned } (escape.addReturned id) := by
  refine { holds with returned := ?_ }
  intro other
  rw [EscapeGraph.addReturned, Std.ExtTreeSet.mem_insert, holds.returned, Set.mem_insert_iff,
    Nat.compare_eq_eq, @eq_comm _ id]

theorem meet {left right : Parts} {a b : EscapeGraph} (left_holds : Holds module left a)
    (right_holds : Holds module right b) : Holds module (left.union right) (a.meet b) where
  memory := by
    intro id kind
    rw [EscapeGraph.meet, Graph.label?_merge, Option.or_eq_some_iff, left_holds.memory,
      right_holds.memory]
    constructor
    · rintro (⟨member, known⟩ | ⟨_, member, known⟩)
      · exact ⟨Or.inl member, known⟩
      · exact ⟨Or.inr member, known⟩
    · rintro ⟨member | member, known⟩
      · exact Or.inl ⟨member, known⟩
      · by_cases here : id ∈ left.memory
        · exact Or.inl ⟨here, known⟩
        · refine Or.inr ⟨?_, member, known⟩
          cases labelled : a.graph.label? id with
          | none => rfl
          | some other => exact absurd ((left_holds.memory id other).mp labelled).1 here
  pointers := by
    intro target source label
    rw [EscapeGraph.meet, Graph.mem_edgeLabels_merge, left_holds.pointers, right_holds.pointers,
      ← or_and_right]
    rfl
  single := fun target source => Graph.nodup_edgeLabels_merge (left_holds.single target source)
  calls := by
    intro id sites
    rw [getElem?_callSites_meet]
    cases right_found : b.callSites[id]? with
    | none =>
      have absent : id ∉ right.calls := fun member => by
        simp [(right_holds.calls id {id}).mpr ⟨member, rfl⟩] at right_found
      simp [Parts.union, absent, left_holds.calls]
    | some others =>
      obtain ⟨member, rfl⟩ := (right_holds.calls id others).mp right_found
      -- On the left, too, there are no call sites or the call itself.
      have both : a.callSites[id]?.getD ∅ ∪ {id} = {id} := by
        cases left_found : a.callSites[id]? with
        | none =>
          ext call
          simp
        | some calls =>
          rw [Option.getD_some, ((left_holds.calls id calls).mp left_found).2]
          ext call
          simp
      rw [Option.map_some, both, Option.some_or, Option.some.injEq]
      exact ⟨fun same => ⟨Or.inr member, same.symm⟩, fun known => known.2.symm⟩
  returned := by
    intro id
    rw [EscapeGraph.meet, Std.ExtTreeSet.mem_union_iff, left_holds.returned, right_holds.returned]
    rfl

/-- A fact that is made of each of several families of contributions is made of all of them. -/
theorem sUnion {sets : Set (Set ValueId)} (nonempty : sets.Nonempty)
    (each : ∀ instructions ∈ sets, Holds module (.ofInstructions module instructions) escape) :
    Holds module (.ofInstructions module (⋃₀ sets)) escape := by
  -- What the fact holds comes from one of the families, and what any of them contributes is in it.
  obtain ⟨first, first_mem⟩ := nonempty
  have holds := each first first_mem
  constructor
  · intro id kind
    constructor
    · intro labelled
      obtain ⟨⟨contributor, member, names⟩, known⟩ := (holds.memory id kind).mp labelled
      exact ⟨⟨contributor, ⟨first, first_mem, member⟩, names⟩, known⟩
    · rintro ⟨⟨contributor, ⟨instructions, listed, member⟩, names⟩, known⟩
      exact ((each instructions listed).memory id kind).mpr ⟨⟨contributor, member, names⟩, known⟩
  · intro target source label
    constructor
    · intro listed
      obtain ⟨⟨contributor, member, stores⟩, known⟩ :=
        (holds.pointers target source label).mp listed
      exact ⟨⟨contributor, ⟨first, first_mem, member⟩, stores⟩, known⟩
    · rintro ⟨⟨contributor, ⟨instructions, listed, member⟩, stores⟩, known⟩
      exact ((each instructions listed).pointers target source label).mpr
        ⟨⟨contributor, member, stores⟩, known⟩
  · exact holds.single
  · intro id sites
    constructor
    · intro found
      obtain ⟨⟨member, allocates⟩, alone⟩ := (holds.calls id sites).mp found
      exact ⟨⟨⟨first, first_mem, member⟩, allocates⟩, alone⟩
    · rintro ⟨⟨⟨instructions, listed, member⟩, allocates⟩, alone⟩
      exact ((each instructions listed).calls id sites).mpr ⟨⟨member, allocates⟩, alone⟩
  · intro id
    constructor
    · intro found
      obtain ⟨contributor, member, returns⟩ := (holds.returned id).mp found
      exact ⟨contributor, ⟨first, first_mem, member⟩, returns⟩
    · rintro ⟨contributor, ⟨instructions, listed, member⟩, returns⟩
      exact ((each instructions listed).returned id).mpr ⟨contributor, member, returns⟩

/-! ### One instruction -/

private theorem silent {id : ValueId} (holds : Holds module parts escape)
    (nothing : ∀ memory, ¬ Names module id memory) :
    Holds module ((Parts.ofInstruction module id).union parts) escape := by
  simpa [Parts.ofInstruction_silent nothing, Parts.union, Parts.empty] using holds

private theorem allocated {id : ValueId} (holds : Holds module parts escape)
    (called : (∃ site, module.instruction? id = some (.call site)) ∨
      ∃ site normalBlock unwindBlock,
      module.instruction? id = some (.invoke site normalBlock unwindBlock)) :
    Holds module ((Parts.ofInstruction module id).union parts)
      (transfer.allocated module id escape) := by
  have known : module.memory? id = some .object := by
    obtain ⟨site, found⟩ | ⟨site, normalBlock, unwindBlock, found⟩ := called
    · exact memory?_of_instruction found rfl
    · exact memory?_of_instruction found rfl
  rw [transfer.allocated]
  split
  next pointer =>
    have called := (holds.addMemory known).addCallSite id
    simpa [Parts.ofInstruction_allocates ⟨pointer, ‹_›⟩, Parts.union, Parts.empty] using called
  next other =>
    apply holds.silent
    rintro memory names
    obtain ⟨site, found⟩ | ⟨site, normalBlock, unwindBlock, found⟩ := called
    · simp [names_iff, Allocates, Stores, Returns, found, other] at names
    · simp [names_iff, Allocates, Stores, Returns, found, other] at names

/-- Each way to name memory takes an instruction of its own kind. -/
theorem not_names_of_other {id : ValueId}
    (no_alloca : ∀ count align, module.instruction? id ≠ some (.alloca count align))
    (no_call : ∀ site, module.instruction? id ≠ some (.call site))
    (no_invoke : ∀ site normalBlock unwindBlock,
      module.instruction? id ≠ some (.invoke site normalBlock unwindBlock))
    (no_store : ∀ value address isVolatile align addrSpace,
      module.instruction? id ≠ some (.store value address isVolatile align addrSpace))
    (no_return : ∀ value, module.instruction? id ≠ some (.ret (some value))) (memory : ValueId) :
    ¬ Names module id memory := by
  intro names
  cases names with
  | allocation found => exact no_alloca _ _ found
  | call allocates =>
    obtain ⟨_, ⟨_, found⟩ | ⟨_, _, _, found⟩⟩ := allocates
    · exact no_call _ found
    · exact no_invoke _ _ _ found
  | target stores =>
    obtain ⟨_, _, _, _, _, _, _, found, _⟩ := stores
    exact no_store _ _ _ _ _ found
  | source stores =>
    obtain ⟨_, _, _, _, _, _, _, found, _⟩ := stores
    exact no_store _ _ _ _ _ found
  | returned returns =>
    obtain ⟨_, _, found, _⟩ := returns
    exact no_return _ found

/-- An instruction adds what it contributes. -/
theorem transfer (holds : Holds module parts escape) (id : ValueId) :
    Holds module ((Parts.ofInstruction module id).union parts) (transfer module escape id) := by
  rw [Escape.transfer.eq_def]
  split
  next count align found =>
    have known := memory?_of_instruction found rfl
    simpa [Parts.ofInstruction_alloca found, Parts.union, Parts.empty] using holds.addMemory known
  next site found => exact holds.allocated (Or.inl ⟨site, found⟩)
  next site normalBlock unwindBlock found =>
    exact holds.allocated (Or.inr ⟨site, normalBlock, unwindBlock, found⟩)
  next value address isVolatile align addrSpace found =>
    split
    next target targetKind source sourceKind into stored =>
      have stores : Stores module id target source := ⟨_, _, _, _, _, _, _, found, into, stored⟩
      have target_known := memory?_of_pointee? into
      have named := (holds.addMemory target_known).addMemory (memory?_of_pointee? stored)
      have pointed := @addPointer _ _ _ named target source _ target_known (by simp)
      simpa [Parts.ofInstruction_stores stores, Parts.union, Parts.empty, Set.insert_union]
        using pointed
    next unresolved =>
      -- A store between pointers one of which leads to no memory adds nothing.
      have no_store : ∀ target source, ¬ Stores module id target source := by
        rintro target source ⟨_, _, _, _, _, _, _, also_found, into, stored⟩
        cases found.symm.trans also_found
        exact unresolved _ _ _ _ into stored
      apply holds.silent
      intro memory names
      simp [names_iff, Allocates, Returns, found, no_store] at names
  next value found =>
    split
    next memory kind refers =>
      have returns : Returns module id memory := ⟨_, _, found, refers⟩
      have returned := (holds.addMemory (memory?_of_pointee? refers)).addReturned memory
      simpa [Parts.ofInstruction_returns returns, Parts.union, Parts.empty] using returned
    next unresolved =>
      apply holds.silent
      intro memory names
      simp [names_iff, Allocates, Stores, Returns, found, unresolved] at names
  next no_alloca no_call no_invoke no_store no_return =>
    exact holds.silent (not_names_of_other no_alloca no_call no_invoke no_store no_return)

end Holds

end Escape

end FlowIR
