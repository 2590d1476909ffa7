import FlowIR.Proofs.Link.Bijection
import FlowIR.Proofs.Link.Renaming
import Mathlib.Data.Set.Function

/-!
# Rearranged tables

The records of a table may stand in any order, their keys may be any keys, and there may be further
records that nothing refers to. None of this shows in the module, nor in the error if there is one,
except that it names the renamed key.
-/
namespace FlowIR

open Table (Key ValueRecord InstructionFields BlockFields FunctionFields ConstantFields Payload)

private theorem Table.keys_subset_of_mem {table : Table} {record : ValueRecord}
    (member : record ∈ table.values) :
    record.keys ⊆ table.keys :=
  fun _ mentioned => List.mem_append_right _ (List.mem_flatMap.mpr ⟨record, member, mentioned⟩)

private theorem Table.keys_subset_of_record? {table : Table} {key : Key} {record : ValueRecord}
    (found : table.record? key = some record) : record.keys ⊆ table.keys :=
  keys_subset_of_mem (List.mem_of_find?_eq_some found)

private theorem Table.lists_subset_keys (table : Table) :
    table.globals ⊆ table.keys ∧ table.aliases ⊆ table.keys ∧
    table.functions ⊆ table.keys := by
  refine ⟨?_, ?_, ?_⟩ <;> exact fun key member => by simp [Table.keys, member]

namespace Link

/-- The second source has the records of the table under their renamed keys. -/
structure Source.Renames (newKey : Key → Key) (table : Table) (source renamed : Source) : Prop where
  indexes : source.Indexes table
  types : renamed.typeIds = source.typeIds
  injective : Set.InjOn newKey {key | key ∈ table.keys}
  records : ∀ key ∈ table.keys,
    renamed.records[newKey key]? = (table.record? key).map (·.rename newKey)

variable {newKey : Key → Key} {table : Table} {source renamed : Source} {key : Key} {α : Type}

/-! ### What a record says -/

private theorem present_rename {β : Type} (record : ValueRecord) (given : Option α)
    (rename : α → β) :
    present (record.rename newKey) (given.map rename) =
      renamedOutcome newKey rename (present record given) := by
  cases given <;> rfl

private theorem constantFields_rename (record : ValueRecord) :
    constantFields (record.rename newKey) =
      renamedOutcome newKey (·.rename newKey) (constantFields record) := by
  obtain ⟨key, tag, name, ty, location, payload⟩ := record
  cases payload <;> rfl

private theorem argumentFields_rename (record : ValueRecord) :
    argumentFields (record.rename newKey) = renamedOutcome newKey id (argumentFields record) := by
  obtain ⟨key, tag, name, ty, location, payload⟩ := record
  cases payload <;> rfl

private theorem instructionFields_rename (record : ValueRecord) :
    instructionFields (record.rename newKey) =
      renamedOutcome newKey (·.rename newKey) (instructionFields record) := by
  obtain ⟨key, tag, name, ty, location, payload⟩ := record
  cases payload <;> rfl

private theorem keys_subset_of_constantFields {record : ValueRecord} {fields : ConstantFields}
    (read : constantFields record = .ok fields) : (Payload.constant fields).keys ⊆ record.keys := by
  cases payload : record.payload <;> simp only [constantFields, payload, reduceCtorEq] at read
  all_goals obtain rfl := Except.ok.inj read
  · simp [Payload.keys]
  · simp [ValueRecord.keys, payload]

private theorem operands_subset_of_instructionFields {record : ValueRecord}
    {fields : InstructionFields} (read : instructionFields record = .ok fields) :
    fields.operands ⊆ record.keys := by
  cases payload : record.payload <;> simp only [instructionFields, payload, reduceCtorEq] at read
  all_goals obtain rfl := Except.ok.inj read
  · simp
  · simp [ValueRecord.keys, payload, Payload.keys]

section

variable (renames : source.Renames newKey table renamed)
include renames

private theorem record_rename (member : key ∈ table.keys) :
    renamed.record (newKey key) = renamedOutcome newKey (·.rename newKey) (source.record key) := by
  rw [Source.record, Source.record, renames.records key member, renames.indexes.records]
  cases table.record? key <;> rfl

private theorem keys_subset_of_record {record : ValueRecord}
    (found : source.record key = .ok record) :
    record.keys ⊆ table.keys :=
  Table.keys_subset_of_record? ((record_eq_ok_iff renames.indexes).mp found)

private theorem functionFields_rename (member : key ∈ table.keys) :
    functionFields renamed (newKey key) =
      renamedOutcome newKey (·.rename newKey) (functionFields source key) := by
  rw [functionFields, functionFields, record_rename renames member]
  cases source.record key with
  | error error => rfl
  | ok record =>
    obtain ⟨key, tag, name, ty, location, payload⟩ := record
    cases payload <;> rfl

private theorem blockFields_rename (member : key ∈ table.keys) :
    blockFields renamed (newKey key) =
      renamedOutcome newKey (·.rename newKey) (blockFields source key) := by
  rw [blockFields, blockFields, record_rename renames member]
  cases source.record key with
  | error error => rfl
  | ok record =>
    obtain ⟨key, tag, name, ty, location, payload⟩ := record
    cases payload <;> rfl

private theorem keys_subset_of_functionFields {fields : FunctionFields}
    (read : functionFields source key = .ok fields) :
    fields.arguments ⊆ table.keys ∧ fields.blocks ⊆ table.keys := by
  obtain ⟨record, found, payload⟩ := (functionFields_eq_ok_iff renames.indexes).mp read
  have inside := Table.keys_subset_of_record? found
  rw [ValueRecord.keys, payload] at inside
  exact List.append_subset.mp (List.cons_subset.mp inside).2

private theorem instructions_subset_of_blockFields {fields : BlockFields}
    (read : blockFields source key = .ok fields) :
    fields.instructions ⊆ table.keys := by
  obtain ⟨record, found, payload⟩ := (blockFields_eq_ok_iff renames.indexes).mp read
  have inside := Table.keys_subset_of_record? found
  rw [ValueRecord.keys, payload] at inside
  exact (List.cons_subset.mp inside).2

/-! ### Numbering the lists -/

private theorem follows_allocate {record : ValueRecord} (member : record.key ∈ table.keys) :
    Follows newKey table.keys (allocate source record)
      (allocate renamed (record.rename newKey)) := by
  rw [allocate, allocate, renames.types]
  apply (follows_lift (keyless_lookupType source.typeIds record.ty)).bind
  intro ty state other agree
  have same_length : other.headers.length = state.headers.length :=
    congrArg List.length agree.headers
  refine ⟨same_length, { agree with headers := congrArg (· ++ [_]) agree.headers, ids := ?_ }⟩
  intro key known
  show (other.ids.insert (newKey record.key) _)[newKey key]? = (state.ids.insert record.key _)[key]?
  rw [Std.ExtTreeMap.getElem?_insert, Std.ExtTreeMap.getElem?_insert,
    agree.ids key known, same_length]
  -- The new number is found under a known key only if it is that of the record, under the renamed
  -- key as well.
  simp only [Std.LawfulEqCmp.compare_eq_iff_eq, renames.injective.eq_iff member known]

private theorem follows_register (expected : Tag → Bool) (member : key ∈ table.keys) :
    Follows newKey table.keys (register source expected key)
      (register renamed expected (newKey key)) := by
  apply follows_lift_bind (record_rename renames member)
  intro record found
  have same_key := Table.key_of_record? ((record_eq_ok_iff renames.indexes).mp found)
  change Follows newKey table.keys (if !expected record.tag then _ else _)
    (if !expected record.tag then _ else _)
  split
  · exact follows_throw _
  · apply follows_get_bind
    intro state other agree
    -- The key has a number in one of the runs exactly if it has one in the other.
    simp only [agree.mem_iff member]
    split
    · exact follows_throw _
    · exact follows_allocate renames (same_key ▸ member)

private theorem follows_registerPart (expected : Tag → Bool) (owner : ValueId)
    (member : key ∈ table.keys) :
    Follows newKey table.keys (registerPart source expected owner key)
      (registerPart renamed expected owner (newKey key)) := by
  apply (follows_register renames expected member).bind
  intro id
  exact (follows_setOwner id owner).bind fun _ => follows_pure id

private theorem follows_registerBlock (function : ValueId) (member : key ∈ table.keys) :
    Follows newKey table.keys (registerBlock source function key)
      (registerBlock renamed function (newKey key)) := by
  apply (follows_registerPart renames _ function member).bind
  intro block
  apply follows_lift_bind (blockFields_rename renames member)
  intro fields read
  have inside := instructions_subset_of_blockFields renames read
  exact follows_forM fun inner listed =>
    follows_discard (follows_registerPart renames _ block (inside listed))

private theorem follows_registerBody (member : key ∈ table.keys) :
    Follows newKey table.keys (registerBody source key) (registerBody renamed (newKey key)) := by
  apply (follows_idOf member).bind
  intro function
  apply follows_lift_bind (functionFields_rename renames member)
  intro fields read
  obtain ⟨arguments_known, blocks_known⟩ := keys_subset_of_functionFields renames read
  apply (follows_forM fun inner listed =>
    follows_discard (follows_registerPart renames _ function (arguments_known listed))).bind
  intro _
  exact follows_forM fun block listed =>
    follows_registerBlock renames function (blocks_known listed)

private theorem follows_registerAll (values : List ValueRecord) :
    Follows newKey table.keys (registerAll source table)
      (registerAll renamed { table.rename newKey with values }) := by
  obtain ⟨globals_known, aliases_known, functions_known⟩ := table.lists_subset_keys
  apply (follows_forM fun key listed =>
    follows_discard (follows_register renames _ (globals_known listed))).bind
  intro _
  apply (follows_forM fun key listed =>
    follows_discard (follows_register renames _ (aliases_known listed))).bind
  intro _
  apply (follows_forM fun key listed =>
    follows_discard (follows_register renames _ (functions_known listed))).bind
  intro _
  exact follows_forM fun key listed => follows_registerBody renames (functions_known listed)

end

/-! ### Contents -/

section

variable {operand operand' : Key → LinkM ValueId}

private theorem follows_linkInstruction (tag : Tag) (fields : InstructionFields)
    (each : ∀ inner ∈ fields.operands,
      Follows newKey table.keys (operand inner) (operand' (newKey inner))) :
    Follows newKey table.keys (linkInstruction operand tag fields)
      (linkInstruction operand' tag (fields.rename newKey)) :=
  (follows_mapM each).bind fun ids => follows_lift (keyless_decode tag fields ids)

private theorem follows_linkConstant (record : ValueRecord) (fields : ConstantFields)
    (tag : ConstantTag)
    (each : ∀ inner ∈ (Payload.constant fields).keys,
      Follows newKey table.keys (operand inner) (operand' (newKey inner))) :
    Follows newKey table.keys (linkConstant operand record fields tag)
      (linkConstant operand' (record.rename newKey) (fields.rename newKey) tag) := by
  have operands : Follows newKey table.keys (fields.operands.mapM operand)
      ((fields.operands.map newKey).mapM operand') :=
    follows_mapM fun inner listed => each inner (List.mem_append_left _ listed)
  -- What is no key is the same in both records.
  have given : ∀ {α : Type} (value : Option α), present (record.rename newKey) value =
      renamedOutcome newKey id (present record value) := by
    intro α value
    cases value <;> rfl
  cases tag with
  | aggregateZero | pointerNull | undef => exact follows_pure _
  | int | float | string => exact follows_lift_bind (given _) fun _ _ => follows_pure _
  | array | struct | vector => exact operands.bind fun _ => follows_pure _
  | blockAddress =>
    exact operands.bind fun ids => follows_lift (keyless_linkBlockAddress record ids)
  | expr =>
    apply follows_lift_bind (present_rename record fields.expr (·.rename newKey))
    intro expr read
    have stored : fields.expr = some expr := by
      cases stored : fields.expr <;> simp_all [present]
    apply Follows.bind (follows_linkInstruction expr.opcode expr.instruction ?_) fun _ =>
      follows_pure _
    intro inner listed
    apply each inner (List.mem_append_right _ _)
    simpa [stored] using listed
  | inlineAsm => exact follows_throw _

private theorem follows_linkConstantContent (record : ValueRecord) (tag : ConstantTag)
    (each : ∀ inner ∈ record.keys,
      Follows newKey table.keys (operand inner) (operand' (newKey inner))) :
    Follows newKey table.keys (linkConstantContent operand record tag)
      (linkConstantContent operand' (record.rename newKey) tag) := by
  by_cases assembly : tag = .inlineAsm
  · subst assembly
    obtain ⟨key, tag, name, ty, location, payload⟩ := record
    cases payload with
    | inlineAsm fields => exact follows_pure _
    | _ => exact follows_throw _
  · rw [linkConstantContent_eq operand record assembly, linkConstantContent_eq operand' _ assembly]
    apply follows_lift_bind (constantFields_rename record)
    intro fields read
    apply Follows.bind (follows_linkConstant record fields tag ?_) fun _ => follows_pure _
    exact fun inner listed => each inner (keys_subset_of_constantFields read listed)

end

/-- One step of linking an operand, with the lookup of its record as a step of its own. -/
theorem operandWithin_eq (source : Source) (enclosing : List Key) (key : Key) :
    operandWithin source enclosing key = (do
      match (← get).ids[key]? with
      | some id => return id
      | none =>
        let record ← source.record key
        match record.tag with
        | .constant tag =>
          if key ∈ enclosing then throw (.constantCycle key)
          else
            let content ← linkConstantContent (operandWithin source (key :: enclosing)) record tag
            settle source record content
        | tag =>
          if tag.isGlobal then throw (.directGlobalReference key tag)
          else throw (.knotTyingFailure key)) := by
  rw [operandWithin]
  congr 1
  funext state
  cases state.ids[key]? with
  | some id => rfl
  | none =>
    rw [Source.record]
    dsimp only
    split
    next missing => simp only [missing]; rfl
    next record found => simp only [found]; rfl

section

variable (renames : source.Renames newKey table renamed)
include renames

/-- By induction on the constants around the key. They are known, and they are the renamed ones in
the other run. -/
theorem follows_operandWithin (enclosing : List Key) (key : Key) (outer : enclosing ⊆ table.keys)
    (member : key ∈ table.keys) :
    Follows newKey table.keys (operandWithin source enclosing key)
      (operandWithin renamed (enclosing.map newKey) (newKey key)) := by
  induction enclosing, key using operandWithin.induct source with
  | case1 enclosing key ih =>
    rw [operandWithin_eq source, operandWithin_eq renamed]
    apply follows_get_bind
    intro state other agree
    rw [agree.ids key member]
    cases state.ids[key]? with
    | some id => exact follows_pure id
    | none =>
      apply follows_lift_bind (record_rename renames member)
      intro record found
      have listed := (record_eq_ok_iff renames.indexes).mp found
      have same_tag : (record.rename newKey).tag = record.tag := rfl
      rw [same_tag]
      cases record.tag with
      | constant tag =>
        -- Different constants around the key stay different, so both runs find the same cycles.
        have same_enclosing : newKey key ∈ enclosing.map newKey ↔ key ∈ enclosing := by
          refine ⟨fun image => ?_, List.mem_map_of_mem⟩
          obtain ⟨around, inside, same⟩ := List.mem_map.mp image
          exact renames.injective (outer inside) member same ▸ inside
        simp only [same_enclosing]
        split
        · exact follows_throw _
        next fresh =>
          have content := follows_linkConstantContent record tag fun inner mentioned =>
            ih record ((renames.indexes.records key).trans listed) fresh inner
              (List.cons_subset.mpr ⟨member, outer⟩) (Table.keys_subset_of_record? listed mentioned)
          apply content.bind
          intro linked
          have key_known : record.key ∈ table.keys := Table.key_of_record? listed ▸ member
          apply (follows_allocate renames key_known).bind
          intro id
          exact (follows_define id linked).bind fun _ => follows_pure id
      | _ =>
        dsimp only
        split <;> exact follows_throw _

private theorem follows_operand (member : key ∈ table.keys) :
    Follows newKey table.keys (operand source key) (operand renamed (newKey key)) :=
  follows_operandWithin renames [] key (List.nil_subset _) member

/-! ### The parts of a module -/

private theorem follows_linkGlobal (member : key ∈ table.keys) :
    Follows newKey table.keys (linkGlobal source key) (linkGlobal renamed (newKey key)) := by
  apply follows_lift_bind (record_rename renames member)
  intro record found
  have known := keys_subset_of_record renames found
  obtain ⟨own, tag, name, ty, location, payload⟩ := record
  cases payload with
  | global fields =>
    apply (follows_option_mapM fun inner given => follows_operand renames (known ?_)).bind
    · exact fun initializer => follows_define_idOf member _
    · exact List.mem_cons_of_mem _ (Option.mem_toList.mpr given)
  | _ => exact follows_throw _

private theorem follows_linkAlias (member : key ∈ table.keys) :
    Follows newKey table.keys (linkAlias source key) (linkAlias renamed (newKey key)) := by
  apply follows_lift_bind (record_rename renames member)
  intro record found
  have known := keys_subset_of_record renames found
  obtain ⟨own, tag, name, ty, location, payload⟩ := record
  cases payload with
  | globalAlias fields =>
    have aliasee_known : fields.aliasee ∈ table.keys :=
      known (List.mem_cons_of_mem _ List.mem_cons_self)
    apply (follows_operand renames aliasee_known).bind
    exact fun aliasee => follows_define_idOf member _
  | _ => exact follows_throw _

private theorem follows_linkArgument (member : key ∈ table.keys) :
    Follows newKey table.keys (linkArgument source key) (linkArgument renamed (newKey key)) := by
  apply follows_lift_bind (record_rename renames member)
  intro record _
  apply follows_lift_bind (argumentFields_rename record)
  exact fun fields _ => follows_define_idOf member _

private theorem follows_linkBodyInstruction (blocks : List ValueId) (member : key ∈ table.keys) :
    Follows newKey table.keys (linkBodyInstruction source blocks key)
      (linkBodyInstruction renamed blocks (newKey key)) := by
  apply follows_lift_bind (record_rename renames member)
  intro record found
  apply follows_lift_bind (instructionFields_rename record)
  intro fields read
  have operands_known : fields.operands ⊆ table.keys :=
    List.Subset.trans (operands_subset_of_instructionFields read)
      (keys_subset_of_record renames found)
  apply (follows_linkInstruction record.tag fields fun inner listed =>
    follows_operand renames (operands_known listed)).bind
  intro instruction
  apply (follows_lift (keyless_checkTargets blocks record.tag instruction)).bind
  exact fun _ => follows_define_idOf member _

private theorem follows_linkBlock (blocks : List ValueId) (member : key ∈ table.keys) :
    Follows newKey table.keys (linkBlock source blocks key)
      (linkBlock renamed blocks (newKey key)) := by
  apply follows_lift_bind (blockFields_rename renames member)
  intro fields read
  have known := instructions_subset_of_blockFields renames read
  apply (follows_forM fun inner listed => follows_linkBodyInstruction renames blocks
    (known listed)).bind
  intro _
  apply (follows_mapM fun inner listed => follows_idOf (known listed)).bind
  exact fun instructions => follows_define_idOf member _

private theorem follows_linkFunction (member : key ∈ table.keys) :
    Follows newKey table.keys (linkFunction source key) (linkFunction renamed (newKey key)) := by
  apply follows_lift_bind (functionFields_rename renames member)
  intro fields read
  obtain ⟨arguments_known, blocks_known⟩ := keys_subset_of_functionFields renames read
  apply (follows_forM fun inner listed => follows_linkArgument renames
    (arguments_known listed)).bind
  intro _
  apply (follows_mapM fun block listed => follows_idOf (blocks_known listed)).bind
  intro blocks
  apply (follows_forM fun block listed => follows_linkBlock renames blocks
    (blocks_known listed)).bind
  intro _
  apply (follows_mapM fun inner listed => follows_idOf (arguments_known listed)).bind
  exact fun arguments => follows_define_idOf member _

private theorem follows_linkContents (values : List ValueRecord) :
    Follows newKey table.keys (linkContents source table)
      (linkContents renamed { table.rename newKey with values }) := by
  obtain ⟨globals_known, aliases_known, functions_known⟩ := table.lists_subset_keys
  apply (follows_forM fun key listed => follows_linkGlobal renames (globals_known listed)).bind
  intro _
  apply (follows_forM fun key listed => follows_linkAlias renames (aliases_known listed)).bind
  intro _
  exact follows_forM fun key listed => follows_linkFunction renames (functions_known listed)

private theorem follows_linkParts (types : List Ty) (values : List ValueRecord) :
    Follows newKey table.keys (linkParts source types table)
      (linkParts renamed types { table.rename newKey with values }) := by
  obtain ⟨globals_known, aliases_known, functions_known⟩ := table.lists_subset_keys
  apply (follows_registerAll renames values).bind
  intro _
  apply (follows_linkContents renames values).bind
  intro _
  apply follows_get_bind
  intro state other agree
  have same_values : other.values = state.values := by
    rw [State.values, State.values, agree.headers, agree.contents]
  rw [same_values, agree.owners]
  apply (follows_lift (keyless_values state)).bind
  intro linked
  apply (follows_mapM fun key listed => follows_idOf (globals_known listed)).bind
  intro globals
  apply (follows_mapM fun key listed => follows_idOf (aliases_known listed)).bind
  intro aliases
  apply (follows_mapM fun key listed => follows_idOf (functions_known listed)).bind
  exact fun functions => follows_pure _

end

private theorem Follows.run'_eq {known : List Key} {action other : LinkM α}
    (follows : Follows newKey known action other) :
    other.run' {} = (action.run' {}).mapError (LinkError.rename newKey) := by
  have initial : State.Agrees newKey known {} {} := ⟨rfl, rfl, rfl, by simp⟩
  have corresponds := follows {} {} initial
  rw [StateT.run'_eq, StateT.run'_eq]
  match action.run {}, other.run {}, corresponds with
  | .error _, .error _, same => exact congrArg Except.error same
  | .ok _, .ok _, ⟨same, _⟩ => exact congrArg Except.ok same

end Link

namespace Table

/-- The second table is the first one with renamed keys, with its records in any order, and with
further records whose keys it does not mention. -/
structure Rearranges (newKey : Key → Key) (added : List ValueRecord)
    (first second : Table) : Prop where
  injective : Set.InjOn newKey {key | key ∈ first.keys}
  values : second.values.Perm ((first.rename newKey).values ++ added)
  unmentioned : ∀ record ∈ added, record.key ∉ (first.rename newKey).keys
  rest : second = { first.rename newKey with values := second.values }

private theorem record?_eq_some_iff {table : Table}
    (distinct : (table.values.map ValueRecord.key).Nodup) {key : Key} {record : ValueRecord} :
    table.record? key = some record ↔ record ∈ table.values ∧ record.key = key := by
  refine ⟨fun found => ⟨List.mem_of_find?_eq_some found, key_of_record? found⟩, ?_⟩
  rintro ⟨member, same⟩
  have found : (table.record? key).isSome :=
    List.find?_isSome.mpr ⟨record, member, by simpa using same⟩
  obtain ⟨other, found⟩ := Option.isSome_iff_exists.mp found
  have same_key : other.key = record.key := (key_of_record? found).trans same.symm
  obtain rfl := List.inj_on_of_nodup_map distinct (List.mem_of_find?_eq_some found) member same_key
  exact found

variable {newKey : Key → Key} {added : List ValueRecord} {first second : Table}

namespace Rearranges

private theorem distinct_first (rearranges : first.Rearranges newKey added second)
    (distinct : (second.values.map ValueRecord.key).Nodup) :
    (first.values.map ValueRecord.key).Nodup := by
  have renamed := (rearranges.values.map ValueRecord.key).nodup_iff.mp distinct
  rw [List.map_append] at renamed
  have originals := (List.nodup_append.mp renamed).1
  have same : (first.rename newKey).values.map ValueRecord.key =
      (first.values.map ValueRecord.key).map newKey := by
    simp [rename, ValueRecord.rename]
  rw [same] at originals
  exact originals.of_map

/-- A key that the first table mentions leads to the same record in both tables, and so to none in
the second one if there is none in the first one. -/
theorem record?_eq (rearranges : first.Rearranges newKey added second)
    (distinct : (second.values.map ValueRecord.key).Nodup) {key : Key}
    (mentioned : key ∈ first.keys) :
    second.record? (newKey key) = (first.record? key).map (·.rename newKey) := by
  have first_distinct := rearranges.distinct_first distinct
  ext record
  rw [record?_eq_some_iff distinct, rearranges.values.mem_iff, Option.map_eq_some_iff,
    List.mem_append]
  constructor
  · rintro ⟨renamed | extra, same⟩
    · obtain ⟨original, member, rfl⟩ := List.mem_map.mp renamed
      have same_key : original.key = key :=
        rearranges.injective (keys_subset_of_mem member List.mem_cons_self) mentioned same
      exact ⟨original, (record?_eq_some_iff first_distinct).mpr ⟨member, same_key⟩, rfl⟩
    · -- An added record has another key than all that are mentioned.
      have renamed_mentioned : newKey key ∈ (first.rename newKey).keys := by
        rw [keys_rename]
        exact List.mem_map_of_mem mentioned
      exact absurd (same ▸ renamed_mentioned) (rearranges.unmentioned record extra)
  · rintro ⟨original, found, rfl⟩
    obtain ⟨member, rfl⟩ := (record?_eq_some_iff first_distinct).mp found
    exact ⟨Or.inl (List.mem_map_of_mem member), rfl⟩

end Rearranges

end Table

open Link in
/-- Records in another order, under other keys and with further records between them give the same
module, or the same error about the record under its other key. That the keys of the first table are
distinct follows. -/
theorem Table.link_rearranged (newKey : Key → Key) (added : List ValueRecord) (first second : Table)
    (rearranges : first.Rearranges newKey added second)
    (distinct : (second.values.map ValueRecord.key).Nodup) :
    second.link = first.link.mapError (LinkError.rename newKey) := by
  obtain ⟨records, recorded⟩ := recordsByKey_succeeds_iff.mpr (rearranges.distinct_first distinct)
  obtain ⟨renamed, renamed_recorded⟩ := recordsByKey_succeeds_iff.mpr distinct
  -- No key comes twice in any of the tables, so only the reader, the types and the parts can be at
  -- fault.
  rw [rearranges.rest]
  dsimp only [Table.link, Table.rename]
  cases first.error with
  | some message => rfl
  | none =>
    dsimp only
    rw [recorded, renamed_recorded]
    change (linkTypes first.types >>= _) = (linkTypes first.types >>= _).mapError _
    cases typed : linkTypes first.types with
    | error error =>
      have keyless := keyless_linkTypes first.types
      rw [typed] at keyless
      exact congrArg Except.error (LinkError.rename_of_keyless keyless newKey).symm
    | ok linked =>
      obtain ⟨typeIds, types⟩ := linked
      have renames : Source.Renames newKey first { records, typeIds }
          { records := renamed, typeIds } :=
        { indexes := indexes_of_link recorded typed
          types := rfl
          injective := rearranges.injective
          records := fun key mentioned =>
            (recordsByKey_getElem? renamed_recorded _).trans
              (rearranges.record?_eq distinct mentioned) }
      exact (follows_linkParts renames types second.values).run'_eq

/-- A constant that holds itself, which nothing refers to. -/
def Table.unusedLoop : ValueRecord :=
  { key := 20, tag := .constant .struct, ty := 1, payload := .constant { operands := [20] } }

/-- The table with the shared initializer again. Every key is taken from sixty, and the loop has a
key that is no longer in use. -/
def Table.mirrored : Table :=
  { types := [{ key := 1, ty := .integer 32 }]
    values :=
      [{ key := 28, tag := .instruction .ret, ty := 1,
         payload := .instruction { operands := [40] } },
       { key := 50, tag := .globalVariable, ty := 1,
         payload := .global { initializer := some 39 } },
       unusedLoop,
       { key := 40, tag := .constant .int, ty := 1, payload := .constant { intValue := some 7 } },
       { key := 30, tag := .function, ty := 1, payload := .function { blocks := [29] } },
       { key := 39, tag := .constant .struct, ty := 1,
         payload := .constant { operands := [49, 40] } },
       { key := 29, tag := .basicBlock, ty := 1, payload := .block { instructions := [28] } },
       { key := 49, tag := .globalVariable, ty := 1,
         payload := .global { initializer := some 39 } }]
    globals := [50, 49]
    functions := [30] }

/-- Both tables give the same module. With a constant among the globals, both are refused for it. -/
theorem Table.mirrored_link : (∃ module, sharing.link = .ok module ∧ mirrored.link = .ok module) ∧
    { sharing with globals := [10, 20] }.link = .error (.unexpectedPayload 20 (.constant .int)) ∧
    { mirrored with globals := [50, 40] }.link =
      .error (.unexpectedPayload 40 (.constant .int)) := by
  have injective : Function.Injective (60 - · : Key → Key) :=
    fun key other same => by simpa using same
  have same : mirrored.link = sharing.link.mapError (LinkError.rename (60 - ·)) :=
    link_rearranged _ [unusedLoop] _ _ ⟨injective.injOn, by decide, by decide, rfl⟩ (by decide)
  have same_refused : { mirrored with globals := [50, 40] }.link =
      { sharing with globals := [10, 20] }.link.mapError (LinkError.rename (60 - ·)) :=
    link_rearranged _ [unusedLoop] _ _ ⟨injective.injOn, by decide, by decide, rfl⟩ (by decide)
  have run : sharing.link.toOption.map (fun _ => ()) = some () := by decide +kernel
  have refused_run : { sharing with globals := [10, 20] }.link.map (fun _ => ()) =
      .error (.unexpectedPayload 20 (.constant .int)) := by decide +kernel
  obtain ⟨module, linked, _⟩ := exists_ok_of_toOption_map run
  have refused := eq_error_of_map refused_run
  rw [same_refused, refused, same, linked]
  exact ⟨⟨module, rfl, rfl⟩, rfl, rfl⟩

end FlowIR
