import FlowIR.Link.Contents

/-!
# What a table says

The records of a table refer to each other by key. The lists of a module lead to some of the
records, and these are the ones that become values. What each of them becomes is said here without
the state of linking, for any way of replacing keys by numbers.
-/
namespace FlowIR

namespace Table

open Link

/-! ### Records and types -/

def record? (table : Table) (key : Key) : Option ValueRecord := table.values.find? (·.key = key)

/-- The types are numbered in the order of their records. -/
def typeId? (table : Table) (key : TypeKey) : Option TypeId := table.types.findIdx? (·.key = key)

theorem key_of_record? {table : Table} {key : Key} {record : ValueRecord}
    (found : table.record? key = some record) : record.key = key := by
  simpa using List.find?_some found

/-! ### References -/

/-- The keys that the fields of a constant with this tag refer to. -/
def ConstantFields.references (fields : ConstantFields) : ConstantTag → List Key
  | .array | .struct | .vector | .blockAddress => fields.operands
  | .expr => match fields.expr with
    | some expr => expr.instruction.operands
    | none => []
  | _ => []

/-- The keys that a record refers to. Which fields count depends on its tag. -/
def ValueRecord.references (record : ValueRecord) : List Key :=
  match record.tag, record.payload with
  | .function, .function fields => fields.arguments ++ fields.blocks
  | .globalVariable, .global fields => fields.initializer.toList
  | .globalAlias, .globalAlias fields => [fields.aliasee]
  | .basicBlock, .block fields => fields.instructions
  | .constant tag, .constant fields => fields.references tag
  | .instruction _, .instruction fields => fields.operands
  | _, _ => []

/-- The keys to which the lists of the module lead, through however many records. -/
inductive Reachable (table : Table) : Key → Prop where
  | global {key : Key} (listed : key ∈ table.globals) : Reachable table key
  | globalAlias {key : Key} (listed : key ∈ table.aliases) : Reachable table key
  | function {key : Key} (listed : key ∈ table.functions) : Reachable table key
  | reference {key inner : Key} {record : ValueRecord} (outer : Reachable table key)
      (found : table.record? key = some record) (referred : inner ∈ record.references) :
      Reachable table inner

theorem ValueRecord.references_of_function {record : ValueRecord} {fields : FunctionFields}
    (tag : record.tag = .function) (payload : record.payload = .function fields) :
    record.references = fields.arguments ++ fields.blocks := by
  simp [references, tag, payload]

theorem ValueRecord.references_of_block {record : ValueRecord} {fields : BlockFields}
    (tag : record.tag = .basicBlock) (payload : record.payload = .block fields) :
    record.references = fields.instructions := by
  simp [references, tag, payload]

theorem ValueRecord.references_of_global {record : ValueRecord} {fields : GlobalFields}
    (tag : record.tag = .globalVariable) (payload : record.payload = .global fields) :
    record.references = fields.initializer.toList := by
  simp [references, tag, payload]

theorem ValueRecord.references_of_alias {record : ValueRecord} {fields : AliasFields}
    (tag : record.tag = .globalAlias) (payload : record.payload = .globalAlias fields) :
    record.references = [fields.aliasee] := by
  simp [references, tag, payload]

section

variable {table : Table} {key inner : Key} {record : ValueRecord} (reachable : table.Reachable key)
  (found : table.record? key = some record)
include reachable found

/-- A function leads to its arguments and its blocks. -/
theorem Reachable.in_function {fields : FunctionFields} (tag : record.tag = .function)
    (payload : record.payload = .function fields)
    (member : inner ∈ fields.arguments ++ fields.blocks) :
    table.Reachable inner :=
  .reference reachable found (record.references_of_function tag payload ▸ member)

theorem Reachable.in_block {fields : BlockFields} (tag : record.tag = .basicBlock)
    (payload : record.payload = .block fields)
    (member : inner ∈ fields.instructions) : table.Reachable inner :=
  .reference reachable found (record.references_of_block tag payload ▸ member)

end

/-! ### The order of the lists -/

/-- A block and its instructions. -/
def blockKeys (table : Table) (key : Key) : List Key :=
  key :: match (table.record? key).map ValueRecord.payload with
    | some (.block fields) => fields.instructions
    | _ => []

/-- The arguments of a function, then its blocks with their instructions. -/
def bodyKeys (table : Table) (key : Key) : List Key :=
  match (table.record? key).map ValueRecord.payload with
  | some (.function fields) => fields.arguments ++ fields.blocks.flatMap table.blockKeys
  | _ => []

/-- Everything but the constants, in the order in which it is numbered. -/
def listedKeys (table : Table) : List Key :=
  table.globals ++ table.aliases ++ table.functions ++ table.functions.flatMap table.bodyKeys

/-! ### Contents -/

/-- The constant that the fields describe, with numbers in place of keys. -/
def ConstantFields.decode (number : Key → ValueId) (record : ValueRecord)
    (fields : ConstantFields) :
    ConstantTag → Except LinkError Constant
  | .aggregateZero => .ok .aggregateZero
  | .pointerNull => .ok .pointerNull
  | .undef => .ok .undef
  | .int => (present record fields.intValue).map .int
  | .float => (present record fields.floatValue).map .float
  | .string => (present record fields.stringValue).map .string
  | .array => .ok (.array (fields.operands.map number))
  | .struct => .ok (.struct (fields.operands.map number))
  | .vector => .ok (.vector (fields.operands.map number))
  | .blockAddress => linkBlockAddress record (fields.operands.map number)
  | .expr => match fields.expr with
    | some expr => (Instruction.decode expr.opcode expr.instruction
        (expr.instruction.operands.map number)).map .expr
    | none => .error (unexpectedPayload record)
  | .inlineAsm => .error (unexpectedPayload record)

/-- The content of a constant with this tag. Inline assembly is not a constant like the others. -/
def ValueRecord.decodeConstant (number : Key → ValueId) (record : ValueRecord) (tag : ConstantTag) :
    Except LinkError Content :=
  match record.payload with
  | .constant fields => (fields.decode number record tag).map .constant
  | .none => (ConstantFields.decode number record {} tag).map .constant
  | .inlineAsm fields =>
    if tag = .inlineAsm then .ok (.inlineAsm fields) else .error (unexpectedPayload record)
  | _ => .error (unexpectedPayload record)

/-- The content that a record describes, with numbers in place of keys. -/
def ValueRecord.decode (number : Key → ValueId) (record : ValueRecord) : Except LinkError Content :=
  match record.tag, record.payload with
  | .function, .function fields => .ok (.function
      { external := fields.external, align := fields.align, linkage := fields.linkage
        visibility := fields.visibility, sectionName := fields.sectionName
        callingConvention := fields.callingConvention, gc := fields.gc
        arguments := fields.arguments.map number, blocks := fields.blocks.map number
        vararg := fields.vararg })
  | .globalVariable, .global fields => .ok (.globalVariable
      { external := fields.external, align := fields.align, linkage := fields.linkage
        visibility := fields.visibility, sectionName := fields.sectionName
        threadLocal := fields.threadLocal, constant := fields.constant
        initializer := fields.initializer.map number })
  | .globalAlias, .globalAlias fields => .ok (.globalAlias
      { linkage := fields.linkage, visibility := fields.visibility,
        aliasee := number fields.aliasee })
  | .argument, .argument fields => .ok (.argument fields)
  | .argument, .none => .ok (.argument {})
  | .basicBlock, .block fields =>
    .ok (.basicBlock { instructions := fields.instructions.map number })
  | .constant tag, _ => record.decodeConstant number tag
  | .instruction opcode, .instruction fields =>
    (Instruction.decode (.instruction opcode) fields (fields.operands.map number)).map .instruction
  | .instruction opcode, .none => (Instruction.decode (.instruction opcode) {} []).map .instruction
  | _, _ => .error (unexpectedPayload record)

private theorem ConstantFields.decode_congr {left right : Key → ValueId} (record : ValueRecord)
    (fields : ConstantFields) (tag : ConstantTag)
    (agree : ∀ key ∈ fields.references tag, left key = right key) :
    fields.decode left record tag = fields.decode right record tag := by
  cases tag with
  | array | struct | vector | blockAddress =>
    simp only [references] at agree
    simp only [ConstantFields.decode, List.map_congr_left agree]
  | expr =>
    simp only [ConstantFields.decode]
    cases expression : fields.expr with
    | none => rfl
    | some expr =>
      simp only [references, expression] at agree
      simp only [List.map_congr_left agree]
  | _ => rfl

/-- Only the numbers of the keys that a record refers to count. -/
theorem ValueRecord.decode_congr {left right : Key → ValueId} {record : ValueRecord}
    (agree : ∀ key ∈ record.references, left key = right key) :
    record.decode left = record.decode right := by
  obtain ⟨key, tag, name, ty, location, payload⟩ := record
  -- Of all pairs of a tag and a payload, only these hold keys.
  cases tag <;> cases payload <;> try rfl
  all_goals simp only [references] at agree
  case function.function fields =>
    have arguments := fun key member => agree key (List.mem_append_left fields.blocks member)
    have blocks := fun key member => agree key (List.mem_append_right fields.arguments member)
    simp only [decode, List.map_congr_left arguments, List.map_congr_left blocks]
  case globalVariable.global fields =>
    cases initializer : fields.initializer <;> simp_all [decode]
  case globalAlias.globalAlias fields => simp_all [decode]
  case basicBlock.block fields => simp only [decode, List.map_congr_left agree]
  case constant.constant tag fields =>
    simp only [decode, decodeConstant, ConstantFields.decode_congr _ fields tag agree]
  case instruction.instruction opcode fields => simp only [decode, List.map_congr_left agree]

end Table

/-! ### Indexes -/

namespace Link

open Table (Key TypeKey ValueRecord TypeRecord)

/-- A loop that refuses keys it has seen finds for each key the only element that has it. -/
theorem getElem?_foldlM_insert {α β : Type} (key : α → UInt64) (value : α → β)
    (error : α → LinkError) (elements : List α) (start result : Std.ExtTreeMap UInt64 β)
    (succeeds : elements.foldlM
      (fun index element => if key element ∈ index then Except.error (error element)
      else Except.ok (index.insert (key element) (value element))) start = .ok result)
    (sought : UInt64) :
    result[sought]? = start[sought]?.or ((elements.find? (key · = sought)).map value) := by
  induction elements generalizing start with
  | nil =>
    obtain rfl : start = result := by simpa [pure, Except.pure] using succeeds
    simp
  | cons first rest ih =>
    rw [List.foldlM_cons] at succeeds
    by_cases known : key first ∈ start
    · simp [known, bind, Except.bind] at succeeds
    · have rest_succeeds := ih (start.insert (key first) (value first)) (by
        simpa [known, bind, Except.bind] using succeeds)
      rw [rest_succeeds, Std.ExtTreeMap.getElem?_insert, List.find?_cons]
      by_cases same : key first = sought
      · -- The key was not known before, and later elements with the same key are refused.
        have absent : start[sought]? = none := Std.ExtTreeMap.getElem?_eq_none (same ▸ known)
        simp [same, absent]
      · simp [same]

/-- The loop succeeds if no key comes twice. -/
theorem foldlM_insert_succeeds_iff {α β : Type} (key : α → UInt64) (value : α → β)
    (error : α → LinkError) (elements : List α) (start : Std.ExtTreeMap UInt64 β) :
    (∃ result, elements.foldlM (fun index element =>
      if key element ∈ index then Except.error (error element)
      else Except.ok (index.insert (key element) (value element))) start = .ok result) ↔
      (elements.map key).Nodup ∧ ∀ element ∈ elements, key element ∉ start := by
  induction elements generalizing start with
  | nil => simp [pure, Except.pure]
  | cons first rest ih =>
    rw [List.foldlM_cons, List.map_cons, List.nodup_cons]
    by_cases known : key first ∈ start
    · simp [known, bind, Except.bind]
    · simp only [known, if_false, bind, Except.bind, ih, Std.ExtTreeMap.mem_insert, List.mem_map]
      -- The key of the first element is refused from now on, like those that were known before.
      constructor
      · rintro ⟨distinct, fresh⟩
        refine ⟨⟨?_, distinct⟩, ?_⟩
        · rintro ⟨element, member, same⟩
          exact fresh element member (Or.inl (by simp [same]))
        · intro element member
          rcases List.mem_cons.mp member with rfl | later
          · exact known
          · exact fun old => fresh element later (Or.inr old)
      · rintro ⟨⟨first_fresh, distinct⟩, fresh⟩
        refine ⟨distinct, fun element member => ?_⟩
        rintro (same | old)
        · have same_key : key first = key element := by simpa using same
          exact first_fresh ⟨element, member, same_key.symm⟩
        · exact fresh element (List.mem_cons_of_mem _ member) old

theorem recordsByKey_succeeds_iff {records : List ValueRecord} :
    (∃ byKey, recordsByKey records = .ok byKey) ↔ (records.map ValueRecord.key).Nodup := by
  have succeeds :=
    foldlM_insert_succeeds_iff ValueRecord.key id (fun record => .duplicateKey record.key) records ∅
  simpa [recordsByKey] using succeeds

theorem numberTypes_succeeds_iff {records : List TypeRecord} :
    (∃ ids, numberTypes records = .ok ids) ↔ (records.map TypeRecord.key).Nodup := by
  have succeeds := foldlM_insert_succeeds_iff (TypeRecord.key ∘ Prod.fst) Prod.snd
    (fun entry => .duplicateType entry.1.key) records.zipIdx ∅
  have keys : records.zipIdx.map (TypeRecord.key ∘ Prod.fst) = records.map TypeRecord.key := by
    rw [← List.map_map, List.zipIdx_map_fst]
  simpa [numberTypes, keys] using succeeds

theorem recordsByKey_getElem? {table : Table} {records : Std.ExtTreeMap Key ValueRecord}
    (succeeds : recordsByKey table.values = .ok records) (key : Key) :
    records[key]? = table.record? key := by
  have found := getElem?_foldlM_insert ValueRecord.key id (fun record => .duplicateKey record.key)
    table.values ∅ records succeeds key
  simpa [Table.record?] using found

theorem numberTypes_getElem? {table : Table} {typeIds : TypeIds}
    (succeeds : numberTypes table.types = .ok typeIds) (key : TypeKey) :
    typeIds[key]? = table.typeId? key := by
  have found := getElem?_foldlM_insert (fun entry : TypeRecord × Nat => entry.1.key) Prod.snd
    (fun entry => .duplicateType entry.1.key) table.types.zipIdx ∅ typeIds succeeds key
  rw [found, Std.ExtTreeMap.getElem?_empty, Option.none_or, Table.typeId?,
    List.findIdx?_eq_fst_find?_zipIdx]

/-- The source looks up what the table lists. -/
structure Source.Indexes (source : Source) (table : Table) : Prop where
  records : ∀ key, source.records[key]? = table.record? key
  types : ∀ key, source.typeIds[key]? = table.typeId? key

theorem indexes_of_link {table : Table} {records : Std.ExtTreeMap Key ValueRecord}
    {typeIds : TypeIds} {types : List Ty} (recorded : recordsByKey table.values = .ok records)
    (typed : linkTypes table.types = .ok (typeIds, types)) :
    Source.Indexes { records, typeIds } table where
  records := recordsByKey_getElem? recorded
  types := by
    rw [linkTypes] at typed
    cases numbered : numberTypes table.types with
    | error error =>
      rw [numbered] at typed
      cases typed
    | ok ids =>
      -- Later steps only add the types themselves.
      have same : ids = typeIds := by
        rw [numbered] at typed
        simp only [bind, Except.bind] at typed
        split at typed
        · cases typed
        · split at typed
          · cases typed
          · cases typed
            rfl
      exact same ▸ numberTypes_getElem? numbered

end Link

end FlowIR
