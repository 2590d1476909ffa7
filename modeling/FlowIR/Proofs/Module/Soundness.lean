import FlowIR.Proofs.Link.WellFormed
import Mathlib.Data.Finset.Card

/-!
# Linked modules are sound

The values of a module refer to each other and to types by number. In a module that was linked, none
of these numbers leads out of it, constants refer to smaller numbers only, and control stays inside
of each function.
-/
namespace FlowIR

/-! ### References by number -/

/-- The values that a constant refers to. -/
def Constant.references : Constant → List ValueId
  | array elements | struct elements | vector elements => elements
  | blockAddress function block => [function, block]
  | expr instruction => instruction.operands
  | _ => []

/-- The values that a value refers to. -/
def Content.references : Content → List ValueId
  | function info => info.arguments ++ info.blocks
  | globalVariable info => info.initializer.toList
  | globalAlias info => [info.aliasee]
  | basicBlock info => info.instructions
  | constant value => value.references
  | instruction operation => operation.operands
  | _ => []

theorem Instruction.operands_of_decode {tag : Tag} {fields : Table.InstructionFields}
    {operands : List ValueId} {instruction : Instruction}
    (decoded : decode tag fields operands = .ok instruction) : instruction.operands = operands := by
  cases tag with
  | instruction opcode => exact (decodeOpcode_spec decoded).1
  | _ => cases decoded

/-- The contents of the kind that a tag names. -/
def Tag.Agrees : Tag → Content → Prop
  | function, .function _ | globalVariable, .globalVariable _ | globalAlias, .globalAlias _ => True
  | argument, .argument _ | basicBlock, .basicBlock _ | instruction _, .instruction _ => True
  | constant _, .constant _ | constant _, .inlineAsm _ => True
  | _, _ => False

private theorem Tag.Agrees.isConstant {tag : Tag} {value : Constant}
    (agrees : tag.Agrees (.constant value)) :
    tag.isConstant = true := by
  cases tag with
  | constant _ => rfl
  | _ => exact agrees.elim

theorem Tag.Agrees.eq_function {tag : Tag} {info : FunctionInfo}
    (agrees : tag.Agrees (.function info)) :
    tag = .function := by
  cases tag with
  | function => rfl
  | _ => exact agrees.elim

theorem Tag.Agrees.eq_basicBlock {tag : Tag} {body : BlockInfo}
    (agrees : tag.Agrees (.basicBlock body)) :
    tag = .basicBlock := by
  cases tag with
  | basicBlock => rfl
  | _ => exact agrees.elim

namespace Table

variable {number : Key → ValueId} {record : ValueRecord}

private theorem ConstantFields.references_of_decode {fields : ConstantFields} {tag : ConstantTag}
    {constant : Constant} (decoded : fields.decode number record tag = .ok constant) :
    constant.references = (fields.references tag).map number := by
  cases tag with
  | int | float | string =>
    obtain ⟨_, _, rfl⟩ := map_eq_ok_iff.mp decoded
    rfl
  | blockAddress =>
    rcases operands : fields.operands with _ | ⟨_, _ | ⟨_, _ | ⟨_, _⟩⟩⟩ <;>
      simp only [decode, operands, List.map_cons, List.map_nil, Link.linkBlockAddress,
        Except.ok.injEq, reduceCtorEq] at decoded
    obtain rfl := decoded
    simp [Constant.references, references, operands]
  | expr =>
    cases expression : fields.expr with
    | none => simp [decode, expression] at decoded
    | some expr =>
      simp only [decode, expression] at decoded
      obtain ⟨instruction, succeeds, rfl⟩ := map_eq_ok_iff.mp decoded
      simp only [Constant.references, references, expression]
      exact Instruction.operands_of_decode succeeds
  | _ => cases decoded <;> rfl

/-- The content of a record refers to the numbers of what the record refers to. -/
theorem ValueRecord.references_of_decode {content : Content}
    (decoded : record.decode number = .ok content) :
    content.references = record.references.map number := by
  obtain ⟨key, tag, name, ty, location, payload⟩ := record
  cases tag with
  | constant tag =>
    cases payload <;> simp only [decode, decodeConstant, reduceCtorEq] at decoded
    case constant fields =>
      obtain ⟨constant, succeeds, rfl⟩ := map_eq_ok_iff.mp decoded
      exact ConstantFields.references_of_decode succeeds
    case none =>
      -- Without fields there is nothing to refer to, whatever the tag.
      obtain ⟨constant, succeeds, rfl⟩ := map_eq_ok_iff.mp decoded
      refine (ConstantFields.references_of_decode succeeds).trans ?_
      cases tag <;> rfl
    case inlineAsm fields =>
      split at decoded
      next is_asm =>
        obtain rfl := Except.ok.inj decoded
        rw [is_asm]
        rfl
      · cases decoded
  | instruction opcode =>
    cases payload <;> simp only [decode, reduceCtorEq] at decoded
    all_goals
      obtain ⟨instruction, succeeds, rfl⟩ := map_eq_ok_iff.mp decoded
      exact Instruction.operands_of_decode succeeds
  | _ =>
    cases payload <;>
      simp only [decode, Except.ok.injEq, reduceCtorEq] at decoded <;> obtain rfl := decoded <;>
      simp [Content.references, references, Option.toList_map]

/-- The kind of the content is that of the tag. Inline assembly has the tag of a constant. -/
theorem ValueRecord.agrees_of_decode {content : Content}
    (decoded : record.decode number = .ok content) :
    record.tag.Agrees content := by
  obtain ⟨key, tag, name, ty, location, payload⟩ := record
  cases tag with
  | constant tag =>
    cases payload <;> simp only [decode, decodeConstant, reduceCtorEq] at decoded
    case inlineAsm =>
      split at decoded
      · cases decoded
        trivial
      · cases decoded
    all_goals
      obtain ⟨_, _, rfl⟩ := map_eq_ok_iff.mp decoded
      trivial
  | instruction opcode =>
    cases payload <;> simp only [decode, reduceCtorEq] at decoded
    all_goals
      obtain ⟨_, _, rfl⟩ := map_eq_ok_iff.mp decoded
      trivial
  | _ => cases payload <;> cases decoded <;> trivial

/-- A record with the tag of an instruction becomes an instruction, and keeps the targets of its
opcode. -/
theorem ValueRecord.exists_instruction_of_decode {opcode : Opcode} {content : Content}
    (tagged : record.tag = .instruction opcode) (decoded : record.decode number = .ok content) :
    ∃ instruction, content = .instruction instruction ∧
      instruction.successorBlocks = opcode.targets (record.references.map number) := by
  obtain ⟨key, tag, name, ty, location, payload⟩ := record
  obtain rfl : tag = .instruction opcode := tagged
  cases payload <;> simp only [decode, reduceCtorEq] at decoded
  all_goals
    obtain ⟨instruction, succeeds, rfl⟩ := map_eq_ok_iff.mp decoded
    exact ⟨instruction, rfl, (Instruction.decodeOpcode_spec succeeds).2⟩

end Table

/-! ### Sound modules -/

namespace Module

/-- The block holds nothing but instructions, and control only goes to these blocks from them. -/
def RunsWithin (module : Module) (blocks : List ValueId) (block : ValueId) : Prop :=
  ∃ body, module.block? block = some body ∧ ∀ id ∈ body.instructions, ∃ instruction,
    module.instruction? id = some instruction ∧ instruction.successorBlocks ⊆ blocks

structure Sound (module : Module) : Prop where
  /-- There are no more values than keys. -/
  counted : module.values.length ≤ UInt64.size
  /-- The components of types are types. -/
  types_closed : ∀ ty ∈ module.types, ∀ inner ∈ ty.inners, inner < module.types.length
  numbered : ∀ id value, module.value? id = some value → value.id = id
  typed : ∀ id value, module.value? id = some value → value.header.ty < module.types.length
  /-- Values only refer to values. -/
  closed : ∀ id content, module.content? id = some content →
    ∀ inner ∈ content.references, inner < module.values.length
  /-- Constants only refer to values with smaller numbers. -/
  descending : ∀ id constant, module.content? id = some (.constant constant) →
    ∀ inner ∈ constant.references, inner < id
  globals : ∀ id ∈ module.globals, id < module.values.length
  aliases : ∀ id ∈ module.aliases, id < module.values.length
  functions : ∀ id ∈ module.functions, ∃ info, module.function? id = some info ∧
    ∀ block ∈ info.blocks, module.RunsWithin info.blocks block

theorem content?_eq_some_of_value? {module : Module} {id : ValueId} {value : Value}
    (found : module.value? id = some value) : module.content? id = some value.content := by
  rw [content?, found, Option.map_some]

theorem lt_of_content? {module : Module} {id : ValueId} {content : Content}
    (found : module.content? id = some content) : id < module.values.length := by
  obtain ⟨value, valued, _⟩ := Option.map_eq_some_iff.mp found
  exact (List.getElem?_eq_some_iff.mp valued).1

theorem content?_of_function? {module : Module} {id : ValueId} {info : FunctionInfo}
    (found : module.function? id = some info) : module.content? id = some (.function info) := by
  rw [function?] at found
  split at found <;> simp_all

theorem content?_of_block? {module : Module} {id : ValueId} {info : BlockInfo}
    (found : module.block? id = some info) : module.content? id = some (.basicBlock info) := by
  rw [block?] at found
  split at found <;> simp_all

theorem content?_of_instruction? {module : Module} {id : ValueId} {instruction : Instruction}
    (found : module.instruction? id = some instruction) :
    module.content? id = some (.instruction instruction) := by
  rw [instruction?] at found
  split at found <;> simp_all

end Module

namespace Table

variable {table : Table} {number : Key → ValueId} {module : Module}

/-- Every content is that of a key. -/
theorem IsLinked.exists_key (linked : table.IsLinked number module) {id : ValueId} {value : Value}
    (found : module.value? id = some value) : ∃ key record, table.Reachable key ∧ number key = id ∧
      table.record? key = some record ∧ value.id = id ∧
      table.typeId? record.ty = some value.header.ty ∧
      record.decode number = .ok value.content := by
  obtain ⟨key, reachable, rfl⟩ := linked.bijective.surjOn (List.getElem?_eq_some_iff.mp found).1
  obtain ⟨record, other, recorded, other_found, same_id, _, _, typed, decoded⟩ :=
    linked.realized key reachable
  obtain rfl := Option.some.inj (found.symm.trans other_found)
  exact ⟨key, record, reachable, rfl, recorded, same_id, typed, decoded⟩

/-- The content of a key is what its record describes. -/
theorem IsLinked.content?_eq (linked : table.IsLinked number module) {key : Key}
    {record : ValueRecord} (reachable : table.Reachable key)
    (found : table.record? key = some record) :
    ∃ content, record.decode number = .ok content ∧
      module.content? (number key) = some content := by
  obtain ⟨other, value, other_found, valued, _, _, _, _, decoded⟩ := linked.realized key reachable
  obtain rfl := Option.some.inj (found.symm.trans other_found)
  exact ⟨value.content, decoded, Module.content?_eq_some_of_value? valued⟩

private theorem IsLinked.number_lt (linked : table.IsLinked number module) {key : Key}
    (reachable : table.Reachable key) : number key < module.values.length :=
  linked.bijective.mapsTo reachable

private theorem IsLinked.length_values_le (linked : table.IsLinked number module) :
    module.values.length ≤ UInt64.size := by
  have keyed : ∀ id < module.values.length, ∃ key, number key = id := fun id bound =>
    (linked.bijective.surjOn bound).imp fun _ known => known.2
  choose! key numbered using keyed
  -- Different values have different keys.
  have injective : Set.InjOn (fun id => (key id).toNat) (Finset.range module.values.length) := by
    intro id bound other other_bound same
    rw [Finset.mem_coe, Finset.mem_range] at bound other_bound
    rw [← numbered id bound, ← numbered other other_bound, UInt64.toNat_inj.mp same]
  have fits := Finset.card_le_card_of_injOn (t := Finset.range UInt64.size)
    (fun id => (key id).toNat) (fun id _ => by simpa using (key id).toNat_lt) injective
  simpa using fits

private theorem typeId?_lt {key : TypeKey} {id : TypeId} (found : table.typeId? key = some id) :
    id < table.types.length :=
  (List.findIdx?_eq_some_iff_findIdx_eq.mp found).1

private theorem IsLinked.closed (linked : table.IsLinked number module) {id : ValueId}
    {content : Content} (found : module.content? id = some content) {inner : ValueId}
    (referred : inner ∈ content.references) :
    inner < module.values.length := by
  obtain ⟨value, valued, rfl⟩ := Option.map_eq_some_iff.mp found
  obtain ⟨key, record, reachable, rfl, recorded, _, _, decoded⟩ := linked.exists_key valued
  rw [ValueRecord.references_of_decode decoded] at referred
  obtain ⟨other, member, rfl⟩ := List.mem_map.mp referred
  exact linked.number_lt (.reference reachable recorded member)

/-- The instructions of a block that control stays among, seen through their numbers. -/
theorem IsLinked.runsWithin (linked : table.IsLinked number module) {blocks : List Key}
    {block : Key} (reachable : table.Reachable block) (is_block : table.IsBlock block)
    (jumps : ∀ inner ∈ table.instructionKeys block, table.JumpsWithin blocks inner) :
    module.RunsWithin (blocks.map number) (number block) := by
  obtain ⟨record, fields, recorded, tagged, payload, instructions⟩ := is_block
  rw [instructionKeys_eq recorded payload] at jumps
  obtain ⟨content, decoded, found⟩ := linked.content?_eq reachable recorded
  simp only [ValueRecord.decode, tagged, payload, Except.ok.injEq] at decoded
  subst decoded
  refine ⟨_, by rw [Module.block?, found], fun id member => ?_⟩
  -- An instruction of the block is the number of one of its record, whose targets were checked as
  -- keys.
  obtain ⟨inner, listed, rfl⟩ := List.mem_map.mp member
  have inner_reachable := reachable.in_block recorded tagged payload listed
  obtain ⟨inner_record, inner_recorded, is_instruction⟩ := instructions inner listed
  obtain ⟨content, decoded, found⟩ := linked.content?_eq inner_reachable inner_recorded
  obtain ⟨opcode, inner_tagged⟩ : ∃ opcode, inner_record.tag = .instruction opcode := by
    cases tag : inner_record.tag <;> simp_all [Tag.isInstruction]
  obtain ⟨instruction, rfl, targets⟩ :=
    ValueRecord.exists_instruction_of_decode inner_tagged decoded
  refine ⟨instruction, by rw [Module.instruction?, found], ?_⟩
  rw [targets, Opcode.targets_map]
  exact List.map_subset number (jumps inner listed inner_record opcode inner_recorded inner_tagged)

private theorem IsLinked.function (linked : table.IsLinked number module) {key : Key}
    (reachable : table.Reachable key) (is_function : table.IsFunction key)
    (inside : table.BranchesInside key) : ∃ info, module.function? (number key) = some info ∧
      ∀ block ∈ info.blocks, module.RunsWithin info.blocks block := by
  obtain ⟨record, fields, recorded, tagged, payload, _, blocks⟩ := is_function
  obtain ⟨content, decoded, found⟩ := linked.content?_eq reachable recorded
  simp only [ValueRecord.decode, tagged, payload, Except.ok.injEq] at decoded
  subst decoded
  refine ⟨_, by rw [Module.function?, found], fun id member => ?_⟩
  obtain ⟨block, listed, rfl⟩ := List.mem_map.mp member
  have inner_reachable :=
    reachable.in_function recorded tagged payload (List.mem_append_right _ listed)
  exact linked.runsWithin inner_reachable (blocks block listed)
    (inside record fields recorded payload block listed)

open Link in
/-- What linking checked is enough for everything in the module to be where it is looked for. -/
theorem sound_of_link (linked : table.link = .ok module) : module.Sound := by
  obtain ⟨_, records, ids, types, recorded, typed, finished⟩ := link_eq_ok_iff.mp linked
  obtain ⟨_, tagged, order, grows, progress, collected, globals, aliases, functions⟩ :=
    (linkParts_ensures (indexes_of_link recorded typed) types).exists_after finished
  have is_linked := isLinked_of_progress tagged grows progress collected globals aliases functions
  obtain ⟨enough_types, types_closed⟩ := types_of_link linked
  constructor
  case counted => exact is_linked.length_values_le
  case types_closed => exact types_closed
  case numbered =>
    intro id value found
    obtain ⟨_, _, _, _, _, same_id, _⟩ := is_linked.exists_key found
    exact same_id
  case typed =>
    intro id value found
    obtain ⟨_, _, _, _, _, _, typed, _⟩ := is_linked.exists_key found
    exact Nat.lt_of_lt_of_le (typeId?_lt typed) enough_types
  case closed => exact fun id content found inner referred => is_linked.closed found referred
  case descending =>
    -- A constant got its number after everything that it refers to.
    intro id constant found inner referred
    obtain ⟨value, valued, is_constant⟩ := Option.map_eq_some_iff.mp found
    obtain ⟨key, record, reachable, rfl, recorded, _, _, decoded⟩ := is_linked.exists_key valued
    rw [is_constant] at decoded
    have references := ValueRecord.references_of_decode decoded
    rw [Content.references] at references
    rw [references] at referred
    obtain ⟨inner_key, member, rfl⟩ := List.mem_map.mp referred
    exact grows.idxOf_lt tagged progress.nodup
      ⟨record, recorded, (ValueRecord.agrees_of_decode decoded).isConstant, member⟩
      ((mem_order_iff progress collected grows).mpr reachable)
  case globals =>
    rw [is_linked.globals]
    intro id listed
    obtain ⟨key, member, rfl⟩ := List.mem_map.mp listed
    exact is_linked.number_lt (.global member)
  case aliases =>
    rw [is_linked.aliases]
    intro id listed
    obtain ⟨key, member, rfl⟩ := List.mem_map.mp listed
    exact is_linked.number_lt (.globalAlias member)
  case functions =>
    rw [is_linked.functions]
    intro id listed
    obtain ⟨key, member, rfl⟩ := List.mem_map.mp listed
    exact is_linked.function (.function member) (tagged.functions key member)
      ((wellFormed_of_link linked).branches_inside key member)

end Table

end FlowIR
