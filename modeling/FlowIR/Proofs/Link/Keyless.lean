import FlowIR.Proofs.Failure
import FlowIR.Proofs.Link.Types

/-!
# Errors that concern no record

Types are linked, instructions are read and values are collected without any key of a value.
Whatever stops these steps, it is the same error whichever keys the records have.
-/
namespace FlowIR

open Table (ValueRecord InstructionFields TypeExpr)

/-- The error does not name a record. -/
def LinkError.Keyless : LinkError → Prop
  | knotTyingFailure _ | directGlobalReference _ _ | duplicateKey _ | unknownValue _
    | unexpectedPayload _ _
  | constantCycle _ => False
  | _ => True

namespace Link

variable {α β : Type}

/-- The computation succeeds, or it fails without naming a record. -/
abbrev Keyless (computation : Except LinkError α) : Prop := FailsOnly LinkError.Keyless computation

/-! ### Values and instructions -/

private theorem keyless_getD {candidate : Option α} {error : LinkError} (keyless : error.Keyless) :
    Keyless ((candidate.map Except.ok).getD (.error error)) := by
  cases candidate with
  | none => exact keyless
  | some result => trivial

theorem keyless_values (state : State) : Keyless state.values := by
  apply failsOnly_mapM
  rintro ⟨header, id⟩ _
  dsimp only
  split <;> trivial

theorem keyless_lookupType (ids : TypeIds) (key : Table.TypeKey) :
    Keyless (lookupType ids key) := by
  rw [lookupType]
  split <;> trivial

private theorem keyless_decodeOpcode (fields : InstructionFields) (opcode : Opcode)
    (operands : List ValueId) :
    Keyless (Instruction.decodeOpcode fields opcode operands) := by
  have integer : Keyless (Instruction.intPredicate fields) := by
    rw [Instruction.intPredicate]
    split <;> trivial
  have floating : Keyless (Instruction.floatPredicate fields) := by
    rw [Instruction.floatPredicate]
    split <;> trivial
  rw [Instruction.decodeOpcode.eq_def]
  dsimp only
  split
  all_goals first | trivial | exact integer.map | exact floating.map | exact keyless_getD trivial

theorem keyless_decode (tag : Tag) (fields : InstructionFields) (operands : List ValueId) :
    Keyless (Instruction.decode tag fields operands) := by
  cases tag with
  | instruction opcode => exact keyless_decodeOpcode fields opcode operands
  | _ => trivial

theorem keyless_checkTargets (blocks : List ValueId) (tag : Tag) (instruction : Instruction) :
    Keyless (instruction.checkTargets blocks tag) := by
  rw [Instruction.checkTargets.eq_def]
  split
  · trivial
  · dsimp only
    split <;> trivial

theorem keyless_linkBlockAddress (record : ValueRecord) (operands : List ValueId) :
    Keyless (linkBlockAddress record operands) := by
  rw [linkBlockAddress.eq_def]
  split <;> trivial

/-! ### Types -/

/-- The same for an action on the types. -/
def TypesKeyless (action : TypeM α) : Prop := ∀ arena, Keyless (action.run arena)

private theorem TypesKeyless.bind {first : TypeM α} {next : α → TypeM β}
    (starts : TypesKeyless first) (continues : ∀ result, TypesKeyless (next result)) :
    TypesKeyless (first >>= next) := by
  intro arena
  rw [StateT.run_bind]
  exact (starts arena).bind fun pair _ => continues pair.1 pair.2

private theorem typesKeyless_lift {computation : Except LinkError α}
    (keyless : Keyless computation) :
    TypesKeyless (liftM computation : TypeM α) := by
  intro arena
  cases computation with
  | error error => exact keyless
  | ok result => trivial

/-- Linking a layer. References have none, and none is asked for. -/
def LayerKeyless (ids : TypeIds) (expr : TypeExpr) : Prop :=
  expr.isReference = false → ∀ enclosing, TypesKeyless (typeLayer ids enclosing expr)

/-- What a layer of a reference would be does not matter. -/
theorem component_of_reference {part : TypeExpr} (reference : part.isReference = true)
    (ids : TypeIds) (enclosing : List TypeId) (first second : List TypeId → TypeM Ty) :
    component ids enclosing part first = component ids enclosing part second := by
  cases part with
  | ref | upref => rfl
  | _ => cases reference

private theorem typesKeyless_component {ids : TypeIds} {part : TypeExpr}
    (layer : LayerKeyless ids part) (enclosing : List TypeId) :
    TypesKeyless (component ids enclosing part (typeLayer ids · part)) := by
  by_cases reference : part.isReference = true
  · cases part <;> simp only [TypeExpr.isReference, Bool.false_eq_true] at reference
    case ref key => exact typesKeyless_lift (keyless_lookupType ids key)
    case upref level =>
      rw [component]
      split <;> exact fun _ => trivial
  · rw [Bool.not_eq_true] at reference
    rw [component_eq ids enclosing _ reference]
    have reserved : TypesKeyless reserveType := fun _ => trivial
    apply reserved.bind
    intro id
    apply (layer reference (id :: enclosing)).bind
    intro ty
    have defined : TypesKeyless (defineType id ty) := fun _ => trivial
    exact defined.bind fun _ _ => trivial

private theorem typesKeyless_typeLayers {ids : TypeIds} {exprs : List TypeExpr}
    (layers : ∀ expr ∈ exprs, LayerKeyless ids expr) (enclosing : List TypeId) :
    TypesKeyless (typeLayers ids enclosing exprs) := by
  induction exprs with
  | nil =>
    rw [typeLayers]
    exact fun _ => trivial
  | cons first rest ih =>
    rw [typeLayers]
    apply (typesKeyless_component (layers first List.mem_cons_self) enclosing).bind
    intro id
    apply (ih fun expr member => layers expr (List.mem_cons_of_mem first member)).bind
    exact fun _ _ => trivial

private theorem layerKeyless (ids : TypeIds) (expr : TypeExpr) : LayerKeyless ids expr := by
  induction expr using TypeExpr.induction_on_parts with
  | step expr ih =>
    intro proper enclosing
    rw [typeLayer_eq ids enclosing proper, map_eq_pure_bind]
    exact (typesKeyless_typeLayers ih enclosing).bind fun _ _ => trivial

private theorem typesKeyless_linkRecords (ids : TypeIds) (entries : List (Table.TypeRecord × Nat)) :
    TypesKeyless (entries.forM fun (record, id) => linkTypeRecord ids record id) := by
  induction entries with
  | nil => exact fun _ => trivial
  | cons entry rest ih =>
    apply TypesKeyless.bind _ fun _ => ih
    change TypesKeyless (linkTypeRecord ids entry.1 entry.2)
    rw [linkTypeRecord_eq]
    split
    · exact fun _ => trivial
    next proper =>
      rw [Bool.not_eq_true] at proper
      exact (layerKeyless ids entry.1.ty proper [entry.2]).bind fun _ _ => trivial

theorem keyless_linkTypes (records : List Table.TypeRecord) : Keyless (linkTypes records) := by
  rw [linkTypes_eq]
  apply FailsOnly.bind
  · apply failsOnly_foldlM
    rintro ids ⟨record, id⟩
    dsimp only
    split <;> trivial
  intro ids _
  apply (typesKeyless_linkRecords ids records.zipIdx (.start records)).bind
  rintro ⟨_, arena⟩ _
  apply FailsOnly.bind
  · apply failsOnly_mapM
    intro id _
    split <;> trivial
  · exact fun _ _ => trivial

end Link

end FlowIR
