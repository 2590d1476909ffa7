import FlowIR.Proofs.Link.Numbering

/-!
# Numbering the lists

The lists of a module are numbered in one pass. If it ends without an error, exactly what the lists
lead to has a number, in the order of the lists, and every record has the tag that its place asks
for.
-/
namespace FlowIR

namespace Table

def HasTag (table : Table) (expected : Tag → Bool) (key : Key) : Prop :=
  ∃ record, table.record? key = some record ∧ expected record.tag = true

/-- A block with nothing but instructions in it. -/
def IsBlock (table : Table) (key : Key) : Prop :=
  ∃ record fields, table.record? key = some record ∧ record.tag = .basicBlock ∧
    record.payload = .block fields ∧
      ∀ inner ∈ fields.instructions, table.HasTag Tag.isInstruction inner

/-- A function with nothing but arguments and blocks in its lists. -/
def IsFunction (table : Table) (key : Key) : Prop :=
  ∃ record fields, table.record? key = some record ∧ record.tag = .function ∧
    record.payload = .function fields ∧
      (∀ inner ∈ fields.arguments, table.HasTag (· = .argument) inner) ∧
    ∀ inner ∈ fields.blocks, table.IsBlock inner

/-- All lists of the module hold what they should. -/
structure WellTagged (table : Table) : Prop where
  globals : ∀ key ∈ table.globals, table.HasTag (· = .globalVariable) key
  aliases : ∀ key ∈ table.aliases, table.HasTag (· = .globalAlias) key
  functions : ∀ key ∈ table.functions, table.IsFunction key

variable {table : Table} {key : Key} {record : ValueRecord}

theorem blockKeys_eq {fields : BlockFields} (found : table.record? key = some record)
    (payload : record.payload = .block fields) :
    table.blockKeys key = key :: fields.instructions := by
  simp [blockKeys, found, payload]

theorem bodyKeys_eq {fields : FunctionFields} (found : table.record? key = some record)
    (payload : record.payload = .function fields) :
    table.bodyKeys key = fields.arguments ++ fields.blocks.flatMap table.blockKeys := by
  simp [bodyKeys, found, payload]

/-- The record of a key that has a tag. -/
theorem HasTag.of_record {expected : Tag → Bool} (tagged : table.HasTag expected key)
    (found : table.record? key = some record) : expected record.tag = true := by
  obtain ⟨other, other_found, holds⟩ := tagged
  exact Option.some.inj (other_found.symm.trans found) ▸ holds

end Table

namespace Link

open Table (Key ValueRecord FunctionFields BlockFields)

variable {source : Source} {table : Table} {order : List Key} {state : State} {key : Key}

theorem functionFields_eq_ok_iff (indexes : source.Indexes table) {fields : FunctionFields} :
    functionFields source key = .ok fields ↔
      ∃ record, table.record? key = some record ∧ record.payload = .function fields := by
  rw [functionFields]
  simp only [bind_eq_ok_iff, record_eq_ok_iff indexes]
  refine exists_congr fun record => and_congr_right fun _ => ?_
  split <;> simp_all [pure, Except.pure, throw, throwThe, MonadExceptOf.throw]

theorem blockFields_eq_ok_iff (indexes : source.Indexes table) {fields : BlockFields} :
    blockFields source key = .ok fields ↔
      ∃ record, table.record? key = some record ∧ record.payload = .block fields := by
  rw [blockFields]
  simp only [bind_eq_ok_iff, record_eq_ok_iff indexes]
  refine exists_congr fun record => and_congr_right fun _ => ?_
  split <;> simp_all [pure, Except.pure, throw, throwThe, MonadExceptOf.throw]

/-- A loop over keys numbers what its steps number, one after the other. -/
theorem forM_registers (keysOf : Key → List Key) (good : Key → Prop) {body : Key → LinkM Unit}
    (keys : List Key)
    (each : ∀ key ∈ keys, ∀ order state, Progress table [] order state →
      Ensures (body key) state fun _ after =>
        Progress table [] (order ++ keysOf key) after ∧ good key)
    (progress : Progress table [] order state) :
    Ensures (keys.forM body) state fun _ after =>
      Progress table [] (order ++ keys.flatMap keysOf) after ∧ ∀ key ∈ keys, good key := by
  refine ensures_forM (fun done after =>
    Progress table [] (order ++ done.flatMap keysOf) after ∧ ∀ key ∈ done, good key) keys ?_ ?_
  · rintro done key listed state ⟨progress, all_good⟩
    refine (each key listed _ state progress).mono fun _ after step => ⟨?_, ?_⟩
    · rw [List.flatMap_append, List.flatMap_singleton, ← List.append_assoc]
      exact step.1
    · intro other member
      rcases List.mem_append.mp member with old | new
      · exact all_good other old
      · exact List.mem_singleton.mp new ▸ step.2
  · simpa using progress

/-! ### Single records -/

section

variable (indexes : source.Indexes table) (progress : Progress table [] order state)
include indexes progress

theorem register_ensures {expected : Tag → Bool} (reachable : table.Reachable key) :
    Ensures (register source expected key) state fun _ after =>
      Progress table [] (order ++ [key]) after ∧ table.HasTag expected key := by
  refine ensures_bind (ensures_lift fun record looked_up => ?_)
  have found := (record_eq_ok_iff indexes).mp looked_up
  split
  · exact ensures_throw _
  next tagged =>
    refine ensures_bind (ensures_get ?_)
    split
    · exact ensures_throw _
    next fresh =>
      have unnumbered : key ∉ order := progress.mem_iff.not.mpr fresh
      refine (allocate_ensures progress indexes found unnumbered List.not_mem_nil reachable).mono ?_
      exact fun _ _ step => ⟨step.2, record, found, by simpa using tagged⟩

theorem registerPart_ensures {expected : Tag → Bool} (owner : ValueId)
    (reachable : table.Reachable key) :
    Ensures (registerPart source expected owner key) state fun _ after =>
      Progress table [] (order ++ [key]) after ∧ table.HasTag expected key := by
  refine ensures_bind ((register_ensures indexes progress reachable).mono ?_)
  rintro id after ⟨numbered, tagged⟩
  refine ensures_bind ((setOwner_ensures numbered id owner).mono fun _ _ owned => ?_)
  exact ensures_pure ⟨owned, tagged⟩

/-! ### Blocks and functions -/

theorem registerBlock_ensures (function : ValueId) (reachable : table.Reachable key) :
    Ensures (registerBlock source function key) state fun _ after =>
      Progress table [] (order ++ table.blockKeys key) after ∧ table.IsBlock key := by
  refine ensures_bind ((registerPart_ensures indexes progress function reachable).mono ?_)
  rintro block after ⟨numbered, tagged⟩
  refine ensures_bind (ensures_lift fun fields read => ?_)
  obtain ⟨record, found, payload⟩ := (blockFields_eq_ok_iff indexes).mp read
  have tag : record.tag = .basicBlock := by simpa using tagged.of_record found
  -- The instructions are referred to by the record, so the list of the module leads to them.
  have inner_reachable : ∀ inner ∈ fields.instructions, table.Reachable inner :=
    fun inner => reachable.in_block found tag payload
  refine (forM_registers (fun inner => [inner]) (table.HasTag Tag.isInstruction)
    fields.instructions ?_ numbered).mono ?_
  · intro inner member order state progress
    exact ensures_discard
      (registerPart_ensures indexes progress block (inner_reachable inner member))
  · rintro _ after ⟨numbered, all_tagged⟩
    rw [Table.blockKeys_eq found payload]
    refine ⟨?_, record, fields, found, tag, payload, all_tagged⟩
    simpa using numbered

theorem registerBody_ensures (tagged : table.HasTag (· = .function) key)
    (reachable : table.Reachable key) :
    Ensures (registerBody source key) state fun _ after =>
      Progress table [] (order ++ table.bodyKeys key) after ∧ table.IsFunction key := by
  refine ensures_bind ((idOf_ensures progress key).mono ?_)
  rintro function _ ⟨rfl, _⟩
  refine ensures_bind (ensures_lift fun fields read => ?_)
  obtain ⟨record, found, payload⟩ := (functionFields_eq_ok_iff indexes).mp read
  have tag : record.tag = .function := by simpa using tagged.of_record found
  have inner_reachable : ∀ inner ∈ fields.arguments ++ fields.blocks, table.Reachable inner :=
    fun inner => reachable.in_function found tag payload
  refine ensures_bind ((forM_registers (fun inner => [inner]) (table.HasTag (· = .argument))
    fields.arguments ?_ progress).mono ?_)
  · intro inner member order state progress
    exact ensures_discard (registerPart_ensures indexes progress function
      (inner_reachable inner (List.mem_append_left _ member)))
  · -- A block brings its instructions along, so it numbers a list of keys.
    rintro _ after ⟨numbered, arguments⟩
    refine (forM_registers table.blockKeys table.IsBlock fields.blocks ?_ numbered).mono ?_
    · intro inner member order state progress
      exact registerBlock_ensures indexes progress function
        (inner_reachable inner (List.mem_append_right _ member))
    · rintro _ after ⟨numbered, blocks⟩
      rw [Table.bodyKeys_eq found payload]
      refine ⟨?_, record, fields, found, tag, payload, arguments, blocks⟩
      simpa using numbered

end

/-! ### All lists -/

/-- One of the lists of the module. -/
theorem forM_register_ensures (indexes : source.Indexes table)
    (progress : Progress table [] order state) {expected : Tag → Bool} {keys : List Key}
    (reachable : ∀ key ∈ keys, table.Reachable key) :
    Ensures (keys.forM fun key => discard (register source expected key)) state fun _ after =>
      Progress table [] (order ++ keys) after ∧ ∀ key ∈ keys, table.HasTag expected key := by
  refine (forM_registers (fun key => [key]) (table.HasTag expected) keys ?_ progress).mono ?_
  · intro key listed order state progress
    exact ensures_discard (register_ensures indexes progress (reachable key listed))
  · rintro _ after ⟨numbered, tagged⟩
    exact ⟨by simpa using numbered, tagged⟩

theorem registerAll_ensures (indexes : source.Indexes table) :
    Ensures (registerAll source table) {} fun _ after =>
      Progress table [] table.listedKeys after ∧ table.WellTagged := by
  -- The three lists in turn, then the bodies of the functions.
  apply ensures_bind
  refine (forM_register_ensures indexes (progress_initial table) fun _ => .global).mono ?_
  rintro _ _ ⟨progress, globals⟩
  apply ensures_bind
  refine (forM_register_ensures indexes progress fun _ => .globalAlias).mono ?_
  rintro _ _ ⟨progress, aliases⟩
  apply ensures_bind
  refine (forM_register_ensures indexes progress fun _ => .function).mono ?_
  rintro _ _ ⟨progress, functions⟩
  refine (forM_registers table.bodyKeys table.IsFunction table.functions ?_ progress).mono ?_
  · intro key listed order state progress
    exact registerBody_ensures indexes progress (functions key listed) (.function listed)
  rintro _ _ ⟨progress, bodies⟩
  exact ⟨by simpa [Table.listedKeys] using progress, globals, aliases, bodies⟩

end Link

end FlowIR
