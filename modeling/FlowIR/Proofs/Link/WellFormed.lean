import FlowIR.Proofs.Link.Bijection
import FlowIR.Proofs.Link.Types
import Mathlib.Logic.Relation

/-!
# Well-formed tables

What a table has to be like so that it can be linked, said about its records alone. If a table was
linked, then it is well-formed: each part of this is something that linking checked on its way.
-/
namespace FlowIR

namespace Table

/-! ### Shapes of records -/

/-- An instruction with this opcode may have these fields. -/
def InstructionFields.Fit (fields : InstructionFields) (opcode : Opcode) : Prop :=
  opcode.Admits fields.operands.length ∧ opcode.AdmitsPredicate fields.predicate

/-- The fields say what a constant with this tag needs. -/
def ConstantFields.Fit (fields : ConstantFields) : ConstantTag → Prop
  | .aggregateZero | .pointerNull | .undef | .array | .struct | .vector => True
  | .int => fields.intValue.isSome = true
  | .float => fields.floatValue.isSome = true
  | .string => fields.stringValue.isSome = true
  | .blockAddress => fields.operands.length = 2
  | .expr => ∃ expr opcode, fields.expr = some expr ∧ expr.opcode = .instruction opcode ∧
      expr.instruction.Fit opcode
  | .inlineAsm => False

/-- The record has the payload that its tag promises. Where there may be none, it is as if all
fields had their defaults. -/
def ValueRecord.HasShape (record : ValueRecord) : Prop :=
  match record.tag, record.payload with
  | .function, .function _ | .globalVariable, .global _ | .globalAlias, .globalAlias _
  | .argument, .argument _ | .argument, .none | .basicBlock, .block _ => True
  | .constant .inlineAsm, .inlineAsm _ => True
  | .constant tag, .constant fields => fields.Fit tag
  | .constant tag, .none => ConstantFields.Fit {} tag
  | .instruction opcode, .instruction fields => fields.Fit opcode
  | .instruction opcode, .none => InstructionFields.Fit {} opcode
  | _, _ => False

theorem ConstantFields.decode_succeeds_iff (number : Key → ValueId) (record : ValueRecord)
    (fields : ConstantFields) (tag : ConstantTag) :
    (∃ constant, fields.decode number record tag = .ok constant) ↔ fields.Fit tag := by
  have present_iff : ∀ {α : Type} (given : Option α),
      (∃ value, Link.present record given = .ok value) ↔ given.isSome = true := by
    intro _ given
    cases given <;> simp [Link.present]
  cases tag with
  | int | float | string => simp [decode, Instruction.map_ok_iff, present_iff, Fit]
  | blockAddress =>
    rcases operands : fields.operands with _ | ⟨_, _ | ⟨_, _ | ⟨_, _⟩⟩⟩ <;>
      simp [decode, Fit, operands, Link.linkBlockAddress]
  | expr =>
    cases expression : fields.expr with
    | none => simp [decode, Fit, expression]
    | some expr =>
      simp [decode, Fit, expression, Instruction.map_ok_iff, Instruction.decode_succeeds_iff,
        InstructionFields.Fit]
  | _ => simp [decode, Fit]

/-- Whether a record has a content does not depend on any numbers. -/
theorem ValueRecord.decode_succeeds_iff (number : Key → ValueId) (record : ValueRecord) :
    (∃ content, record.decode number = .ok content) ↔ record.HasShape := by
  obtain ⟨key, tag, name, ty, location, payload⟩ := record
  cases tag
  case constant tag =>
    cases payload
    case constant fields =>
      cases tag <;>
        simp [decode, decodeConstant, HasShape, Instruction.map_ok_iff,
          ConstantFields.decode_succeeds_iff]
    case none =>
      cases tag <;>
        simp [decode, decodeConstant, HasShape, Instruction.map_ok_iff,
          ConstantFields.decode_succeeds_iff]
    all_goals cases tag <;> simp [decode, decodeConstant, HasShape]
  case instruction opcode =>
    cases payload <;>
      simp [decode, HasShape, Instruction.map_ok_iff, Instruction.decode_succeeds_iff,
      InstructionFields.Fit]
  all_goals cases payload <;> simp [decode, HasShape]

/-! ### Tables -/

/-- The constant with the first key refers to the second key. -/
def Contains (table : Table) (key inner : Key) : Prop :=
  ∃ record, table.record? key = some record ∧ record.tag.isConstant = true ∧
    inner ∈ record.references

/-- The key of a record with a known type and the shape of its tag. It is that of a constant, or it
stands in one of the lists. -/
def Usable (table : Table) (key : Key) : Prop :=
  ∃ record id, table.record? key = some record ∧ table.typeId? record.ty = some id ∧
    record.HasShape ∧
    (key ∈ table.listedKeys ∨ record.tag.isConstant = true)

structure WellFormed (table : Table) : Prop where
  readable : table.error = none
  distinct_values : (table.values.map ValueRecord.key).Nodup
  distinct_types : (table.types.map TypeRecord.key).Nodup
  linkable_types : ∀ record ∈ table.types, record.IsLinkable (· ∈ table.types.map TypeRecord.key)
  well_tagged : table.WellTagged
  /-- No key stands twice in all the lists together. -/
  distinct_listed : table.listedKeys.Nodup
  /-- Everything that the lists lead to, through however many constants. -/
  usable : ∀ key, table.Reachable key → table.Usable key
  /-- No constant leads back to itself. -/
  acyclic : ∀ key, table.Reachable key → ¬ Relation.TransGen table.Contains key key
  branches_inside : ∀ key ∈ table.functions, table.BranchesInside key

end Table

namespace Link

open Table (Key)

variable {source : Source} {table : Table} {order : List Key} {key inner : Key}

/-! ### What linking checked -/

private theorem linkParts_branchesInside (indexes : source.Indexes table) (types : List Ty) :
    Ensures (linkParts source types table) {} fun _ _ =>
      ∀ key ∈ table.functions, table.BranchesInside key := by
  refine ensures_bind ((registerAll_ensures indexes).mono ?_)
  rintro _ _ ⟨progress, tagged⟩
  refine ensures_bind ((linkContents_ensures indexes tagged progress).mono ?_)
  rintro _ _ ⟨_, _, _, _, _, inside⟩
  exact fun _ _ _ => inside

/-- A constant got its number after everything that it refers to. -/
theorem Grows.idxOf_lt (tagged : table.WellTagged) (grows : Grows table table.listedKeys order)
    (distinct : order.Nodup) (contains : table.Contains key inner) (member : key ∈ order) :
    order.idxOf inner < order.idxOf key := by
  obtain ⟨record, found, constant, referred⟩ := contains
  induction grows with
  | refl =>
    have other_tag := (tagged.not_constant member).of_record found
    simp [constant] at other_tag
  | @constant later last other grows last_found _ known ih =>
    obtain ⟨distinct, _, apart⟩ := List.nodup_append.mp distinct
    by_cases old : key ∈ later
    · have earlier := ih distinct old
      have inner_old : inner ∈ later :=
        List.idxOf_lt_length_iff.mp (Nat.lt_trans earlier (List.idxOf_lt_length_of_mem old))
      rwa [List.idxOf_append_of_mem old, List.idxOf_append_of_mem inner_old]
    · -- The constant is the last one of the list, and what it refers to stands before it.
      obtain rfl : key = last := by simpa [old] using member
      obtain rfl := Option.some.inj (found.symm.trans last_found)
      rw [List.idxOf_append_of_mem (known referred), List.idxOf_append_of_notMem old]
      exact Nat.lt_of_lt_of_le (List.idxOf_lt_length_of_mem (known referred)) (Nat.le_add_right _ _)

private theorem idxOf_lt_of_transGen (tagged : table.WellTagged)
    (grows : Grows table table.listedKeys order) (distinct : order.Nodup)
    (contains : Relation.TransGen table.Contains key inner) (member : key ∈ order) :
    order.idxOf inner < order.idxOf key := by
  induction contains with
  | single contains => exact grows.idxOf_lt tagged distinct contains member
  | tail _ contains ih =>
    have between : _ ∈ order :=
      List.idxOf_lt_length_iff.mp (Nat.lt_trans ih (List.idxOf_lt_length_of_mem member))
    exact Nat.lt_trans (grows.idxOf_lt tagged distinct contains between) ih

end Link

open Link in
theorem Table.wellFormed_of_link {table : Table} {module : Module}
    (linked : table.link = .ok module) :
    table.WellFormed := by
  obtain ⟨readable, records, ids, types, recorded, typed, finished⟩ := link_eq_ok_iff.mp linked
  have indexes := indexes_of_link recorded typed
  obtain ⟨_, branches_inside⟩ := (linkParts_branchesInside indexes types).exists_after finished
  obtain ⟨_, tagged, order, grows, progress, collected, _⟩ :=
    (linkParts_ensures indexes types).exists_after finished
  obtain ⟨distinct_types, linkable_types⟩ := linkTypes_succeeds_iff.mp ⟨_, typed⟩
  have numbered {key : Key} : key ∈ order ↔ table.Reachable key :=
    mem_order_iff progress collected grows
  refine ⟨readable, recordsByKey_succeeds_iff.mp ⟨records, recorded⟩, distinct_types,
    linkable_types, tagged,
    ?_, fun key reachable => ?_, fun key reachable cycle => ?_, branches_inside⟩
  · have distinct := progress.nodup
    obtain ⟨added, rfl, _⟩ := grows.exists_added
    exact (List.nodup_append.mp distinct).1
  · have member := numbered.mpr reachable
    obtain ⟨header, content, headed, describes, _⟩ := exists_value progress collected member
    obtain ⟨record, found, _, _, ty⟩ := headed
    obtain ⟨other, other_found, _, decoded⟩ := describes
    obtain rfl := Option.some.inj (found.symm.trans other_found)
    refine ⟨record, header.ty, found, ty, (record.decode_succeeds_iff _).mp ⟨content, decoded⟩, ?_⟩
    -- What was not listed got its number later, and then it is a constant.
    obtain ⟨added, rfl, constants⟩ := grows.exists_added
    exact (List.mem_append.mp member).imp_right fun late => (constants key late).of_record found
  · have falls := idxOf_lt_of_transGen tagged grows progress.nodup cycle (numbered.mpr reachable)
    exact Nat.lt_irrefl _ falls

end FlowIR
