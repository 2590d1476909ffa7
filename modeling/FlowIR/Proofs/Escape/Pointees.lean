import FlowIR.Proofs.Escape.Coherence
import Mathlib.Logic.Relation

/-!
# The memory behind a pointer

A pointer may be computed from another one, by a cast or by an address computation, and that one
from a third. The search for its memory follows this chain. Where the chain comes to a value that
stands for memory, this is the memory of the pointer. Where it ends at anything else, or where it
comes back to a value that it has passed, there is none. No chain leads to two of these outcomes, so
each of them tells what the search returns.
-/
namespace FlowIR

namespace Escape

variable {module : Module}

/-! ### Chains -/

/-- The pointer from which a cast or an address computation starts. -/
inductive StartsFrom : Instruction → ValueId → Prop
  | cast (op : CastOp) (value : ValueId) : StartsFrom (.cast op value) value
  | address (inBounds : Bool) (base : ValueId) (indices : List ValueId) :
      StartsFrom (.getElementPtr inBounds base indices) base

/-- The value is computed from the base pointer, by an instruction or in a constant expression. -/
inductive ComputedFrom (module : Module) (id base : ValueId) : Prop
  | instruction {instruction : Instruction} (found : module.content? id =
      some (.instruction instruction))
      (starts : StartsFrom instruction base) : ComputedFrom module id base
  | expression {instruction : Instruction} (found : module.content? id =
      some (.constant (.expr instruction)))
      (starts : StartsFrom instruction base) : ComputedFrom module id base

/-- The value itself stands for memory of this kind. -/
inductive StandsFor (module : Module) (id : ValueId) : MemoryKind → Prop
  | argument {attributes : Table.ArgumentFields} (found : module.content? id =
      some (.argument attributes)) : StandsFor module id .parameter
  | globalVariable {info : GlobalInfo} (found : module.content? id = some (.globalVariable info)) :
      StandsFor module id .global
  | globalAlias {info : AliasInfo} (found : module.content? id = some (.globalAlias info)) :
      StandsFor module id .global
  | allocation {count : Option ValueId} {align : UInt32}
      (found : module.content? id = some (.instruction (.alloca count align))) : StandsFor
        module id .object
  | call {site : CallSite} (found : module.content? id = some (.instruction (.call site))) :
      StandsFor module id .object
  | invoke {site : CallSite} {normalBlock unwindBlock : ValueId}
      (found : module.content? id = some (.instruction (.invoke site normalBlock unwindBlock))) :
      StandsFor module id .object

/-- The chain from a value leads to this memory, and to no other memory before it. -/
structure FirstMemory (module : Module) (id memory : ValueId) (kind : MemoryKind) : Prop where
  leads : Relation.ReflTransGen (ComputedFrom module) id memory
  stands : StandsFor module memory kind
  first : ∀ earlier, Relation.ReflTransGen (ComputedFrom module) id earlier →
    Relation.TransGen (ComputedFrom module) earlier memory →
      ∀ other, ¬ StandsFor module earlier other

/-- The chain ends at a value of the module that is not memory. -/
def EndsElsewhere (module : Module) (id : ValueId) : Prop :=
  ∃ last, last < module.values.length ∧ Relation.ReflTransGen (ComputedFrom module) id last ∧
    (∀ kind, ¬ StandsFor module last kind) ∧ ∀ base, ¬ ComputedFrom module last base

/-- The chain runs into a cycle. -/
def Circles (module : Module) (id : ValueId) : Prop :=
  ∃ entry, Relation.ReflTransGen (ComputedFrom module) id entry ∧
    Relation.TransGen (ComputedFrom module) entry entry

/-- The outcome of the chain is this result. -/
def Explains (module : Module) (id : ValueId) : Option (ValueId × MemoryKind) → Prop
  | some (memory, kind) => FirstMemory module id memory kind
  | none => EndsElsewhere module id ∨ Circles module id

/-! ### Single values -/

private theorem startsFrom_iff {instruction : Instruction} {base : ValueId} :
    StartsFrom instruction base ↔ instruction.basePointer? = some base := by
  constructor
  · intro starts
    cases starts <;> rfl
  · intro found
    cases instruction <;> cases found
    · exact .cast _ _
    · exact .address _ _ _

private theorem computedFrom_iff {id base : ValueId} :
    ComputedFrom module id base ↔ HasBase module id base := by
  constructor
  · intro computed
    cases computed with
    | instruction found starts => exact ⟨_, found, startsFrom_iff.mp starts⟩
    | expression found starts => exact ⟨_, found, startsFrom_iff.mp starts⟩
  · intro has_base
    obtain ⟨content, found, based⟩ := has_base
    rw [base?.eq_def] at based
    split at based
    · exact .instruction found (startsFrom_iff.mpr based)
    · exact .expression found (startsFrom_iff.mpr based)
    · cases based

private theorem standsFor_iff {id : ValueId} {kind : MemoryKind} :
    StandsFor module id kind ↔ module.memory? id = some kind := by
  constructor
  · intro stands
    cases stands <;> rw [Module.memory?, ‹module.content? id = _›] <;> rfl
  · intro known
    obtain ⟨content, found, own⟩ := Option.bind_eq_some_iff.mp known
    rw [memoryKind?.eq_def] at own
    split at own <;> cases own
    · exact .argument found
    · exact .globalVariable found
    · exact .globalAlias found
    · exact .allocation found
    · exact .call found
    · exact .invoke found

private theorem computedFrom_unique : Relator.RightUnique (ComputedFrom module) := by
  intro id base other computed also_computed
  obtain ⟨content, found, based⟩ := computedFrom_iff.mp computed
  obtain ⟨same, also_found, also_based⟩ := computedFrom_iff.mp also_computed
  cases found.symm.trans also_found
  exact Option.some.inj (based.symm.trans also_based)

/-- Where the chain comes to memory, it ends. -/
theorem StandsFor.ends {id : ValueId} {kind : MemoryKind} (stands : StandsFor module id kind)
    (base : ValueId) :
    ¬ ComputedFrom module id base := by
  intro computed
  obtain ⟨content, found, based⟩ := computedFrom_iff.mp computed
  have own := standsFor_iff.mp stands
  rw [Module.memory?, found, Option.bind_some, memoryKind?.eq_def] at own
  split at own <;> cases own <;> cases based

/-! ### The end of a chain -/

section

variable {id last : ValueId} (leads : Relation.ReflTransGen (ComputedFrom module) id last)
  (ends : ∀ base, ¬ ComputedFrom module last base)
include leads ends

/-- Whatever a chain passes leads on to its end. -/
theorem leads_to_end {passed : ValueId}
    (passes : Relation.ReflTransGen (ComputedFrom module) id passed) :
    Relation.ReflTransGen (ComputedFrom module) passed last := by
  rcases Relation.ReflTransGen.total_of_right_unique computedFrom_unique leads passes
    with after | before
  · rcases Relation.ReflTransGen.cases_head after with rfl | ⟨base, computed, _⟩
    · exact .refl
    · exact absurd computed (ends base)
  · exact before

private theorem end_unique {other : ValueId}
    (leads_too : Relation.ReflTransGen (ComputedFrom module) id other)
    (ends_too : ∀ base, ¬ ComputedFrom module other base) : other = last := by
  rcases Relation.ReflTransGen.cases_head (leads_to_end leads ends leads_too)
    with same | ⟨base, computed, _⟩
  · exact same
  · exact absurd computed (ends_too base)

/-- A chain that has an end does not start on a cycle: its values would all lie on the cycle, and
none of them could be the end. -/
theorem not_on_cycle : ¬ Relation.TransGen (ComputedFrom module) id id := by
  induction leads using Relation.ReflTransGen.head_induction_on with
  | refl =>
    intro cycle
    obtain ⟨base, computed, _⟩ := Relation.TransGen.head'_iff.mp cycle
    exact ends base computed
  | @head id base computed _ ih =>
    intro cycle
    obtain ⟨other, also_computed, back⟩ := Relation.TransGen.head'_iff.mp cycle
    obtain rfl := computedFrom_unique computed also_computed
    exact ih (Relation.TransGen.tail' back computed)

private theorem not_circles : ¬ Circles module id := by
  intro circles
  obtain ⟨entry, passes, cycle⟩ := circles
  exact not_on_cycle (leads_to_end leads ends passes) ends cycle

end

private theorem firstMemory_of_leads {id memory : ValueId} {kind : MemoryKind}
    (leads : Relation.ReflTransGen (ComputedFrom module) id memory)
    (stands : StandsFor module memory kind) :
    FirstMemory module id memory kind where
  leads := leads
  stands := stands
  first := by
    intro earlier _ goes_on other is_memory
    -- What the chain goes on from is computed from something.
    obtain ⟨base, computed, _⟩ := Relation.TransGen.head'_iff.mp goes_on
    exact is_memory.ends base computed

/-- A chain has one outcome only. -/
theorem Explains.unique {id : ValueId} {result other : Option (ValueId × MemoryKind)}
    (explains : Explains module id result)
    (explains_too : Explains module id other) : result = other := by
  -- A chain that comes to memory comes to nothing else.
  have only_memory : ∀ {memory kind} {result : Option (ValueId × MemoryKind)},
      FirstMemory module id memory kind →
      Explains module id result → result = some (memory, kind) := by
    intro memory kind result found explains
    match result, explains with
    | some (also_memory, also_kind), also_found =>
      obtain rfl := end_unique found.leads found.stands.ends also_found.leads also_found.stands.ends
      have known := standsFor_iff.mp found.stands
      have also_known := standsFor_iff.mp also_found.stands
      rw [Option.some.inj (known.symm.trans also_known)]
    | none, .inl ⟨last, _, leads, not_memory, ends⟩ =>
      obtain rfl := end_unique found.leads found.stands.ends leads ends
      exact absurd found.stands (not_memory kind)
    | none, .inr circles => exact absurd circles (not_circles found.leads found.stands.ends)
  match result, other, explains, explains_too with
  | some (memory, kind), _, found, explains => exact (only_memory found explains).symm
  | none, some (memory, kind), explains, found => exact only_memory found explains
  | none, none, _, _ => rfl

/-! ### The search -/

/-- The search at a value, when these values have been met. It comes to its result in so many
passes. -/
inductive Search (module : Module) :
    List ValueId → ValueId → Nat → Option (ValueId × MemoryKind) → Prop
  | again {met : List ValueId} {id : ValueId} (known : id ∈ met) : Search module met id 1 none
  | memory {met : List ValueId} {id : ValueId} {kind : MemoryKind} (fresh : id ∉ met)
      (stands : StandsFor module id kind) : Search module met id 1 (some (id, kind))
  | elsewhere {met : List ValueId} {id : ValueId} (fresh : id ∉ met)
      (inside : id < module.values.length)
      (not_memory : ∀ kind, ¬ StandsFor module id kind) (ends : ∀ base,
        ¬ ComputedFrom module id base) :
      Search module met id 1 none
  | follow {met : List ValueId} {id base : ValueId} {passes : Nat}
      {result : Option (ValueId × MemoryKind)}
      (fresh : id ∉ met) (computed : ComputedFrom module id base)
        (rest : Search module (id :: met) base passes result) :
      Search module met id (passes + 1) result

/-- Values of the module that are all different are not more than there are. -/
theorem length_met_le {met : List ValueId} (distinct : met.Nodup)
    (inside : ∀ id ∈ met, id < module.values.length) :
    met.length ≤ module.values.length := by
  have listed : met ⊆ List.range module.values.length :=
    fun id member => List.mem_range.mpr (inside id member)
  simpa using (List.subperm_of_subset distinct listed).length_le

/-- Every pass but the last one meets another value of the module, so the passes are limited. -/
theorem search_pointeeFrom (sound : module.Sound) {met : List ValueId} {id : ValueId}
    (inside : id < module.values.length) (distinct : met.Nodup)
    (met_inside : ∀ id ∈ met, id < module.values.length) :
    ∃ passes, passes + met.length ≤ module.values.length + 1 ∧
      Search module met id passes (pointeeFrom module met id) := by
  have room : 1 + met.length ≤ module.values.length + 1 := by
    have := length_met_le distinct met_inside
    omega
  fun_induction pointeeFrom module met id with
  | case1 met id known => exact ⟨1, room, .again known⟩
  | case2 met id fresh missing =>
    -- This does not happen: chains stay inside of the module.
    exact absurd inside (Nat.not_lt.mpr (List.getElem?_eq_none_iff.mp missing))
  | case3 met id fresh value found kind own =>
    have stands : StandsFor module id kind := by
      apply standsFor_iff.mpr
      simp [Module.memory?, Module.content?, Module.value?, found, own]
    exact ⟨1, room, .memory fresh stands⟩
  | case4 met id fresh value found _ base based ih =>
    have has_base : HasBase module id base :=
      ⟨value.content, by simp [Module.content?, Module.value?, found], based⟩
    have now_inside : ∀ other ∈ id :: met, other < module.values.length := by
      intro other member
      rcases List.mem_cons.mp member with rfl | old
      · exact inside
      · exact met_inside other old
    have now_distinct : (id :: met).Nodup := List.nodup_cons.mpr ⟨fresh, distinct⟩
    have now_room := length_met_le now_distinct now_inside
    obtain ⟨passes, enough, rest⟩ := ih (has_base.lt sound) now_distinct now_inside (by omega)
    refine ⟨passes + 1, ?_, .follow fresh (computedFrom_iff.mpr has_base) rest⟩
    rw [List.length_cons] at enough
    omega
  | case5 met id fresh value found not_memory no_base =>
    have content : module.content? id = some value.content := by
      simp [Module.content?, Module.value?, found]
    refine ⟨1, room, .elsewhere fresh inside ?_ ?_⟩
    · intro kind stands
      have known := standsFor_iff.mp stands
      simp [Module.memory?, content, not_memory] at known
    · intro base computed
      obtain ⟨other, also_found, based⟩ := computedFrom_iff.mp computed
      cases content.symm.trans also_found
      simp [no_base] at based

private theorem Explains.of_base {id base : ValueId} {result : Option (ValueId × MemoryKind)}
    (computed : ComputedFrom module id base) (explains : Explains module base result) :
    Explains module id result := by
  match result, explains with
  | some (memory, kind), found =>
    exact firstMemory_of_leads (.head computed found.leads) found.stands
  | none, .inl ⟨last, inside, leads, ends⟩ => exact .inl ⟨last, inside, .head computed leads, ends⟩
  | none, .inr ⟨entry, leads, cycle⟩ => exact .inr ⟨entry, .head computed leads, cycle⟩

/-- By induction on the passes. The values that have been met lead to the current one, so meeting
one of them again closes a cycle. -/
theorem Search.explains {met : List ValueId} {id : ValueId} {passes : Nat}
    {result : Option (ValueId × MemoryKind)} (search : Search module met id passes result)
    (behind : ∀ earlier ∈ met, Relation.TransGen (ComputedFrom module) earlier id) :
    Explains module id result := by
  induction search with
  | again known => exact .inr ⟨_, .refl, behind _ known⟩
  | memory fresh stands => exact firstMemory_of_leads .refl stands
  | elsewhere fresh inside not_memory ends => exact .inl ⟨_, inside, .refl, not_memory, ends⟩
  | @follow met id base passes result fresh computed rest ih =>
    apply Explains.of_base computed
    apply ih
    intro earlier member
    rcases List.mem_cons.mp member with rfl | old
    · exact .single computed
    · exact .tail (behind earlier old) computed

private theorem lt_of_isPointer {id : ValueId} (pointer : module.isPointer id = true) :
    id < module.values.length := by
  rw [Module.isPointer] at pointer
  split at pointer
  next typed =>
    obtain ⟨value, found, _⟩ := Option.bind_eq_some_iff.mp typed
    exact (List.getElem?_eq_some_iff.mp found).1
  · cases pointer

end Escape

open Escape in
/-- In a linked module, the search for the memory behind a pointer comes to an end after at most one
pass more than there are values. It returns the first memory to which the chain of base pointers
leads, and nothing if the chain ends elsewhere or runs into a cycle. -/
theorem Table.pointee?_of_link {table : Table} {module : Module} (linked : table.link = .ok module)
    {id : ValueId} (pointer : module.isPointer id = true) :
    (∃ passes ≤ module.values.length + 1, Search module [] id passes (pointee? module id)) ∧
      (∀ memory kind, pointee? module id = some (memory, kind) ↔
        FirstMemory module id memory kind) ∧
      (pointee? module id = none ↔ EndsElsewhere module id ∨ Circles module id) := by
  obtain ⟨passes, enough, search⟩ :=
    search_pointeeFrom (sound_of_link linked) (lt_of_isPointer pointer) List.nodup_nil (by simp)
  have same : pointee? module id = pointeeFrom module [] id := by rw [pointee?, if_pos pointer]
  rw [← same] at search
  have explains : Explains module id (pointee? module id) := search.explains (by simp)
  refine ⟨⟨passes, by simpa using enough, search⟩,
    fun memory kind => ⟨fun found => ?_, fun first => ?_⟩, ?_⟩
  · rw [found] at explains
    exact explains
  · exact explains.unique (show Explains module id (some (memory, kind)) from first)
  · constructor
    · intro nothing
      rw [nothing] at explains
      exact explains
    · intro outcome
      exact explains.unique (show Explains module id none from outcome)

/-- A pointer into a global is computed by a constant expression, a cast and an address computation.
In a block that is never reached, a cast and an address computation start from each other. -/
def Table.threading : Table :=
  { types := [{ key := 1, ty := .pointer (.integer 8) 0 }, { key := 2, ty := .label },
    { key := 3, ty := .void }]
    values :=
      [{ key := 1, tag := .globalVariable, ty := 1, payload := .global {} },
       { key := 2, tag := .function, ty := 1, payload := .function { blocks := [3, 7] } },
       { key := 3, tag := .basicBlock, ty := 2, payload := .block { instructions := [4, 5, 6] } },
       { key := 4, tag := .instruction (.cast .bitCast), ty := 1,
         payload := .instruction { operands := [20] } },
       { key := 5, tag := .instruction .getElementPtr, ty := 1,
         payload := .instruction { operands := [4] } },
       { key := 6, tag := .instruction .ret, ty := 3 },
       { key := 7, tag := .basicBlock, ty := 2, payload := .block { instructions := [8, 9, 10] } },
       { key := 8, tag := .instruction (.cast .bitCast), ty := 1,
         payload := .instruction { operands := [9] } },
       { key := 9, tag := .instruction .getElementPtr, ty := 1,
         payload := .instruction { operands := [8] } },
       { key := 10, tag := .instruction .unreachable, ty := 3 },
       { key := 20, tag := .constant .expr, ty := 1,
         payload := .constant
          { expr := some
              { opcode := .instruction .getElementPtr, instruction := { operands := [1] } } } }]
    globals := [1]
    functions := [2] }

open Escape in
theorem Table.threading_pointees :
    ∃ module, threading.link = .ok module ∧ module.isPointer 4 = true ∧
    FirstMemory module 4 0 .global ∧ module.isPointer 7 = true ∧ Circles module 7 ∧
    pointee? module 7 = none := by
  have run : (threading.link.toOption.map fun module => (module.isPointer 4, pointee? module 4)) =
      some (true, some (0, .global)) := by
    decide +kernel
  have dead_run : (threading.link.toOption.map fun module => (module.isPointer 7, module.content? 7,
      module.content? 8)) =
      some (true, some (.instruction (.cast .bitCast 8)),
          some (.instruction (.getElementPtr false 7 []))) := by
    decide +kernel
  obtain ⟨module, linked, run⟩ := exists_ok_of_toOption_map run
  obtain ⟨pointer, found⟩ := Prod.mk.inj run
  simp only [linked, Except.toOption, Option.map_some, Option.some.injEq, Prod.mk.injEq] at dead_run
  obtain ⟨dead_pointer, cast, address⟩ := dead_run
  have circles : Circles module 7 :=
    ⟨7, .refl, .tail (.single (.instruction cast (.cast _ _)))
      (.instruction address (.address _ _ _))⟩
  exact ⟨module, linked, pointer, ((pointee?_of_link linked pointer).2.1 0 .global).mp found,
    dead_pointer, circles, (pointee?_of_link linked dead_pointer).2.2.mpr (.inr circles)⟩

end FlowIR
