import FlowIR.Proofs.Instruction.Decode
import FlowIR.Proofs.Link.Registration

/-!
# Linking contents

Once the lists are numbered, only constants get new numbers, and each of them gets its content along
with its number. The content of every value is what its record describes under the numbers of the
keys that it refers to, and control stays inside of each function.
-/
namespace FlowIR

namespace Table

/-- The instructions of a block. -/
def instructionKeys (table : Table) (key : Key) : List Key := (table.blockKeys key).tail

/-- Control only goes to these blocks from an instruction. -/
def JumpsWithin (table : Table) (blocks : List Key) (key : Key) : Prop :=
  ∀ record opcode, table.record? key = some record → record.tag = .instruction opcode →
    opcode.targets record.references ⊆ blocks

/-- Control stays inside of a function. -/
def BranchesInside (table : Table) (key : Key) : Prop :=
  ∀ record fields, table.record? key = some record → record.payload = .function fields →
    ∀ block ∈ fields.blocks, ∀ inner ∈ table.instructionKeys block,
      table.JumpsWithin fields.blocks inner

theorem blockKeys_eq_cons (table : Table) (key : Key) :
    table.blockKeys key = key :: table.instructionKeys key := rfl

theorem instructionKeys_eq {table : Table} {key : Key} {record : ValueRecord} {fields : BlockFields}
    (found : table.record? key = some record) (payload : record.payload = .block fields) :
    table.instructionKeys key = fields.instructions := by
  rw [instructionKeys, blockKeys_eq found payload, List.tail_cons]

end Table

namespace Link

open Table (Key ValueRecord InstructionFields ConstantFields)

variable {source : Source} {table : Table} {enclosing order later : List Key} {state after : State}
  {key : Key}

/-! ### New numbers -/

/-- The later list goes on with constants, each of them after everything that it refers to. -/
inductive Grows (table : Table) (order : List Key) : List Key → Prop
  | refl : Grows table order order
  | constant {later : List Key} {key : Key} {record : ValueRecord} (grows : Grows table order later)
      (found : table.record? key = some record) (tagged : record.tag.isConstant = true)
      (known : record.references ⊆ later) : Grows table order (later ++ [key])

namespace Grows

theorem trans {latest : List Key} (first : Grows table order later)
    (second : Grows table later latest) :
    Grows table order latest := by
  induction second with
  | refl => exact first
  | constant _ found tagged known ih => exact .constant ih found tagged known

theorem exists_added (grows : Grows table order later) :
    ∃ added, later = order ++ added ∧ ∀ key ∈ added, table.HasTag Tag.isConstant key := by
  induction grows with
  | refl => exact ⟨[], by simp, by simp⟩
  | @constant later key record _ found tagged _ ih =>
    obtain ⟨added, rfl, constants⟩ := ih
    refine ⟨added ++ [key], List.append_assoc order added [key], fun other member => ?_⟩
    rcases List.mem_append.mp member with old | new
    · exact constants other old
    · exact List.mem_singleton.mp new ▸ ⟨record, found, tagged⟩

theorem subset (grows : Grows table order later) : order ⊆ later := by
  obtain ⟨added, rfl, _⟩ := grows.exists_added
  exact List.subset_append_left order added

theorem getElem?_eq_some (grows : Grows table order later) {id : ValueId}
    (numbered : order[id]? = some key) : later[id]? = some key := by
  obtain ⟨added, rfl, _⟩ := grows.exists_added
  exact Table.getElem?_append_of_eq_some numbered added

theorem map_idxOf (grows : Grows table order later) {keys : List Key} (known : keys ⊆ order) :
    keys.map later.idxOf = keys.map order.idxOf := by
  obtain ⟨added, rfl, _⟩ := grows.exists_added
  exact Table.map_idxOf_append known added

end Grows

/-- No content got lost, and whatever got a number got its content, too. Nothing changed its
owner. -/
structure Fills (state after : State) : Prop where
  kept : ∀ id ∈ state.contents, id ∈ after.contents
  filled : ∀ id, state.headers.length ≤ id → id < after.headers.length → id ∈ after.contents
  owners : after.owners = state.owners

private theorem Fills.refl (state : State) : Fills state state where
  kept := fun _ known => known
  filled := fun _ late early => absurd early (Nat.not_lt.mpr late)
  owners := rfl

private theorem Fills.trans {between : State} (first : Fills state between)
    (second : Fills between after) :
    Fills state after where
  kept := fun id known => second.kept id (first.kept id known)
  filled := fun id late early => by
    rcases Nat.lt_or_ge id between.headers.length with old | new
    · exact second.kept id (first.filled id late old)
    · exact second.filled id new early
  owners := second.owners.trans first.owners

private theorem Fills.insert (state : State) (id : ValueId) (content : Content) :
    Fills state { state with contents := state.contents.insert id content } where
  kept := fun other known => by simp [known]
  filled := fun _ late early => absurd early (Nat.not_lt.mpr late)
  owners := rfl

private theorem define_eq (id : ValueId) (content : Content) :
    Ensures (define id content) state fun _ after =>
      after = { state with contents := state.contents.insert id content } :=
  ensures_modify rfl

/-- Only one number is new, and any content for it fills the gap. -/
theorem allocate_fills (record : ValueRecord) (content : Content) :
    Ensures (allocate source record) state fun id after =>
      Fills state { after with contents := after.contents.insert id content } := by
  refine ensures_bind (ensures_lift fun ty _ => ensures_modifyGet ⟨fun id known => ?_, ?_, rfl⟩)
  · simp [known]
  · intro id late early
    have last : id = state.headers.length := by
      simp only [List.length_append, List.length_singleton] at early
      omega
    simp [last]

/-- The key has a number, and there is a content for it. -/
def HasContent (order : List Key) (state : State) (key : Key) : Prop :=
  ∃ id, order[id]? = some key ∧ id ∈ state.contents

/-- Linking went on from these numbers and only added constants. The fact is about the numbers and
the state after it. -/
def Extends (table : Table) (enclosing order : List Key) (state : State)
    (fact : List Key → State → Prop) (after : State) : Prop :=
  ∃ later, Grows table order later ∧ Fills state after ∧ Progress table enclosing later after ∧
    fact later after

/-- What stays true when linking goes on. -/
def Lasting (table : Table) (fact : List Key → State → Prop) : Prop :=
  ∀ ⦃order later : List Key⦄ ⦃state after : State⦄, Grows table order later → Fills state after →
    fact order state → fact later after

private theorem lasting_hasContent (table : Table) (key : Key) :
    Lasting table fun order state => HasContent order state key := by
  rintro order later state after grows fills ⟨id, numbered, known⟩
  exact ⟨id, grows.getElem?_eq_some numbered, fills.kept id known⟩

private theorem lasting_const (table : Table) (fact : Prop) : Lasting table fun _ _ => fact :=
  fun _ _ _ _ _ _ holds => holds

private theorem Lasting.and {first second : List Key → State → Prop}
    (first_lasts : Lasting table first) (second_lasts : Lasting table second) :
    Lasting table fun order state => first order state ∧ second order state :=
  fun _ _ _ _ grows fills both => ⟨first_lasts grows fills both.1, second_lasts grows fills both.2⟩

private theorem lasting_forall {keys : List Key} {good : Key → List Key → State → Prop}
    (each : ∀ key ∈ keys, Lasting table (good key)) :
    Lasting table fun order state => ∀ key ∈ keys, good key order state :=
  fun _ _ _ _ grows fills all key member => each key member grows fills (all key member)

private theorem Progress.extends {fact : List Key → State → Prop}
    (progress : Progress table enclosing order state) (holds : fact order state) :
    Extends table enclosing order state fact state :=
  ⟨order, .refl, .refl state, progress, holds⟩

theorem Extends.mono {weak strong : List Key → State → Prop}
    (extended : Extends table enclosing order state strong after)
    (implies : ∀ later after, strong later after → weak later after) :
    Extends table enclosing order state weak after := by
  obtain ⟨later, grows, fills, progress, holds⟩ := extended
  exact ⟨later, grows, fills, progress, implies later after holds⟩

/-- What follows an action goes on from the numbers after it. -/
theorem ensures_bind_extends {α β : Type} {first : LinkM α} {next : α → LinkM β}
    {first_fact : α → List Key → State → Prop} {fact : β → List Key → State → Prop}
    (ensures : Ensures first state fun result => Extends table enclosing order state
      (first_fact result))
    (continues : ∀ result later between, Grows table order later →
      Progress table enclosing later between → first_fact result later between →
      Ensures (next result) between fun result =>
      Extends table enclosing later between (fact result)) :
    Ensures (first >>= next) state fun result =>
      Extends table enclosing order state (fact result) := by
  refine ensures_bind (ensures.mono ?_)
  rintro result between ⟨later, grows, fills, progress, holds⟩
  refine (continues result later between grows progress holds).mono ?_
  rintro _ after ⟨latest, grows_later, fills_later, progress, holds⟩
  exact ⟨latest, grows.trans grows_later, fills.trans fills_later, progress, holds⟩

/-- A lasting fact still holds after an action. -/
theorem Ensures.carry {α : Type} {action : LinkM α} {old : List Key → State → Prop}
    {fact : α → List Key → State → Prop}
    (ensures : Ensures action state fun result => Extends table enclosing order state (fact result))
    (lasting : Lasting table old) (holds : old order state) :
    Ensures action state fun result => Extends table enclosing order state fun later after =>
      old later after ∧ fact result later after := by
  refine ensures.mono ?_
  rintro result after ⟨later, grows, fills, progress, new⟩
  exact ⟨later, grows, fills, progress, lasting grows fills holds, new⟩

theorem forM_extends {body : Key → LinkM Unit} {good : Key → List Key → State → Prop}
    (keys : List Key) (lasting : ∀ key ∈ keys, Lasting table (good key))
    (each : ∀ key ∈ keys, ∀ later between, Grows table order later →
      Progress table enclosing later between →
      Ensures (body key) between fun _ => Extends table enclosing later between (good key))
    (progress : Progress table enclosing order state) :
    Ensures (keys.forM body) state fun _ => Extends table enclosing order state fun later after =>
      ∀ key ∈ keys, good key later after := by
  -- The keys that are done are among all keys, so what is good about them lasts.
  refine (ensures_forM (fun done => Extends table enclosing order state fun later after =>
    done ⊆ keys ∧ ∀ key ∈ done, good key later after) keys ?_ (progress.extends (by simp))).mono
      fun _ after extended => extended.mono fun _ _ all_done => all_done.2
  rintro done key listed between ⟨later, grows, fills, progress, within, all_good⟩
  refine (each key listed later between grows progress).mono ?_
  rintro _ after ⟨latest, grows_later, fills_later, progress, is_good⟩
  refine ⟨latest, grows.trans grows_later, fills.trans fills_later, progress, ?_, ?_⟩
  · exact List.append_subset.mpr ⟨within, by simpa using listed⟩
  · intro other member
    rcases List.mem_append.mp member with old | new
    · exact lasting other (within old) grows_later fills_later (all_good other old)
    · exact List.mem_singleton.mp new ▸ is_good

/-! ### Contents, given how operands are linked -/

/-- Linking this operand gives its number, after it got one if it had none. -/
def Resolves (table : Table) (enclosing : List Key) (operand : Key → LinkM ValueId)
    (key : Key) : Prop :=
  ∀ order state, Progress table enclosing order state →
    Ensures (operand key) state fun id => Extends table enclosing order state fun later _ =>
      later[id]? = some key

/-- All constants but inline assembly go the same way. -/
theorem linkConstantContent_eq (operand : Key → LinkM ValueId) (record : ValueRecord)
    {tag : ConstantTag} (other : tag ≠ .inlineAsm) : linkConstantContent operand record tag = (do
      return .constant (← linkConstant operand record (← constantFields record) tag)) := by
  cases tag <;> first | rfl | contradiction

/-- A constant without fields is like one whose fields are all missing. -/
theorem constantFields_spec {record : ValueRecord} {tag : ConstantTag} {fields : ConstantFields}
    (tagged : record.tag = .constant tag) (read : constantFields record = .ok fields) :
    record.references = fields.references tag ∧
      ∀ number, record.decode number = (fields.decode number record tag).map .constant := by
  cases payload : record.payload <;> simp only [constantFields, payload, reduceCtorEq] at read
  all_goals obtain rfl := Except.ok.inj read
  case none =>
    refine ⟨?_, fun number => ?_⟩
    · cases tag <;> simp [ValueRecord.references, tagged, payload, ConstantFields.references]
    · simp [ValueRecord.decode, ValueRecord.decodeConstant, tagged, payload]
  case constant =>
    refine ⟨?_, fun number => ?_⟩
    · simp [ValueRecord.references, tagged, payload]
    · simp [ValueRecord.decode, ValueRecord.decodeConstant, tagged, payload]

theorem instructionFields_spec {record : ValueRecord} {fields : InstructionFields}
    (tagged : record.tag.isInstruction = true) (read : instructionFields record = .ok fields) :
    record.references = fields.operands ∧ ∀ number, record.decode number =
      (Instruction.decode record.tag fields (fields.operands.map number)).map .instruction := by
  cases tag : record.tag <;> simp only [tag, Tag.isInstruction, Bool.false_eq_true] at tagged
  cases payload : record.payload <;> simp only [instructionFields, payload, reduceCtorEq] at read
  all_goals
    obtain rfl := Except.ok.inj read
    simp [ValueRecord.references, ValueRecord.decode, tag, payload]

section

variable {operand : Key → LinkM ValueId} (progress : Progress table enclosing order state)
include progress

theorem mapM_resolves (keys : List Key)
    (each : ∀ key ∈ keys, Resolves table enclosing operand key) :
    Ensures (keys.mapM operand) state fun ids => Extends table enclosing order state fun later _ =>
      keys ⊆ later ∧ ids = keys.map later.idxOf := by
  refine ensures_mapM (fun done ids => Extends table enclosing order state fun later _ =>
    done ⊆ later ∧ ids = done.map later.idxOf) keys ?_
      (progress.extends ⟨List.nil_subset order, rfl⟩)
  rintro done ids key listed between ⟨later, grows, fills, progress, known, rfl⟩
  refine (each key listed later between progress).mono ?_
  rintro id after ⟨latest, grows_later, fills_later, progress, numbered⟩
  refine ⟨latest, grows.trans grows_later, fills.trans fills_later, progress, ?_, ?_⟩
  · have new : key ∈ latest := List.mem_of_getElem? numbered
    exact List.append_subset.mpr ⟨List.Subset.trans known grows_later.subset, by simpa using new⟩
  · rw [List.map_append, List.map_singleton, progress.idxOf_eq numbered,
      grows_later.map_idxOf known]

theorem option_mapM_resolves (operand? : Option Key)
    (each : ∀ key ∈ operand?.toList, Resolves table enclosing operand key) :
    Ensures (operand?.mapM operand) state fun id? =>
      Extends table enclosing order state fun later _ =>
      operand?.toList ⊆ later ∧ id? = operand?.map later.idxOf := by
  cases operand? with
  | none => exact ensures_pure (progress.extends ⟨List.nil_subset order, rfl⟩)
  | some key =>
    refine ensures_map ((each key (by simp) order state progress).mono ?_)
    rintro id after ⟨later, grows, fills, progress, numbered⟩
    refine ⟨later, grows, fills, progress, ?_, ?_⟩
    · simpa using List.mem_of_getElem? numbered
    · rw [Option.map_some, progress.idxOf_eq numbered]

theorem linkInstruction_ensures (tag : Tag) (fields : InstructionFields)
    (each : ∀ key ∈ fields.operands, Resolves table enclosing operand key) :
    Ensures (linkInstruction operand tag fields) state fun instruction =>
      Extends table enclosing order state fun later _ => fields.operands ⊆ later ∧
        Instruction.decode tag fields (fields.operands.map later.idxOf) = .ok instruction := by
  refine ensures_bind_extends (mapM_resolves progress fields.operands each) ?_
  rintro ids later state _ progress ⟨known, rfl⟩
  exact ensures_lift fun instruction decoded => progress.extends ⟨known, decoded⟩

private theorem linkConstant_ensures (record : ValueRecord) (fields : ConstantFields)
    (tag : ConstantTag)
    (each : ∀ key ∈ fields.references tag, Resolves table enclosing operand key) :
    Ensures (linkConstant operand record fields tag) state fun constant =>
      Extends table enclosing order state fun later _ => fields.references tag ⊆ later ∧
        fields.decode later.idxOf record tag = .ok constant := by
  -- Constants without fields, with a literal, with elements, and with an expression.
  cases tag with
  | aggregateZero | pointerNull | undef =>
    exact ensures_pure (progress.extends ⟨List.nil_subset order, rfl⟩)
  | inlineAsm => exact ensures_throw _
  | int | float | string =>
    refine ensures_bind (ensures_lift fun value given => ensures_pure ?_)
    refine progress.extends ⟨List.nil_subset order, ?_⟩
    rw [ConstantFields.decode, given]
    rfl
  | array | struct | vector =>
    refine ensures_bind_extends (mapM_resolves progress fields.operands each) ?_
    rintro ids later state _ progress ⟨known, rfl⟩
    exact ensures_pure (progress.extends ⟨known, rfl⟩)
  | blockAddress =>
    refine ensures_bind_extends (mapM_resolves progress fields.operands each) ?_
    rintro ids later state _ progress ⟨known, rfl⟩
    exact ensures_lift fun constant decoded => progress.extends ⟨known, decoded⟩
  | expr =>
    refine ensures_bind (ensures_lift fun expr given => ?_)
    have expression : fields.expr = some expr := by
      cases described : fields.expr <;> simp_all [present]
    simp only [ConstantFields.references, expression] at each
    refine ensures_bind_extends
      (linkInstruction_ensures progress expr.opcode expr.instruction each) ?_
    rintro instruction later state _ progress ⟨known, decoded⟩
    refine ensures_pure (progress.extends ?_)
    simp only [ConstantFields.references, ConstantFields.decode, expression, decoded]
    exact ⟨known, rfl⟩

private theorem linkConstantContent_ensures {record : ValueRecord} {tag : ConstantTag}
    (tagged : record.tag = .constant tag)
    (each : ∀ key ∈ record.references, Resolves table enclosing operand key) :
    Ensures (linkConstantContent operand record tag) state fun content =>
      Extends table enclosing order state fun later _ =>
        record.references ⊆ later ∧ record.decode later.idxOf = .ok content := by
  by_cases assembly : tag = .inlineAsm
  · subst assembly
    simp only [linkConstantContent]
    split
    next fields payload =>
      refine ensures_pure (progress.extends ?_)
      simp [ValueRecord.references, ValueRecord.decode, ValueRecord.decodeConstant, tagged, payload]
    next => exact ensures_throw _
  · rw [linkConstantContent_eq operand record assembly]
    refine ensures_bind (ensures_lift fun fields read => ?_)
    obtain ⟨references, decodes⟩ := constantFields_spec tagged read
    rw [references] at each ⊢
    refine ensures_bind_extends (linkConstant_ensures progress record fields tag each) ?_
    rintro constant later state _ progress ⟨known, decoded⟩
    refine ensures_pure (progress.extends ⟨known, ?_⟩)
    rw [decodes, decoded]
    rfl

end

/-! ### Operands -/

/-- By induction on the constants around the key: a constant is numbered after everything it refers
to, and linking these cannot have numbered it, because it was enclosing them. -/
theorem operandWithin_resolves (indexes : source.Indexes table) (enclosing : List Key) (key : Key)
    (reachable : table.Reachable key) :
    Resolves table enclosing (operandWithin source enclosing) key := by
  induction enclosing, key using operandWithin.induct source with
  | case1 enclosing key ih =>
    intro order state progress
    rw [operandWithin]
    refine ensures_bind (ensures_get ?_)
    split
    next id numbered =>
      exact ensures_pure (progress.extends ((progress.numbered key id).mp numbered))
    next unknown =>
      split
      · exact ensures_throw _
      next record looked_up =>
        have found : table.record? key = some record := (indexes.records key).symm.trans looked_up
        split
        next tag tagged =>
          split
          · exact ensures_throw _
          next outside =>
            have fresh : key ∉ order := by
              rw [progress.mem_iff, Std.ExtTreeMap.mem_iff_isSome_getElem?, unknown]
              simp
            -- The key encloses what its constant refers to while that is linked.
            have each : ∀ inner ∈ record.references,
                Resolves table (key :: enclosing) (operandWithin source (key :: enclosing)) inner :=
              fun inner referred =>
                ih record looked_up outside inner (.reference reachable found referred)
            refine ensures_bind
              ((linkConstantContent_ensures (progress.enclose fresh) tagged each).mono ?_)
            rintro content between ⟨later, grows, fills, progress, known, decoded⟩
            -- Nothing in there can have numbered it, so now it gets a number of its own.
            have still_fresh : key ∉ later := progress.unnumbered key List.mem_cons_self
            refine ensures_bind (((allocate_ensures progress.leave indexes found still_fresh outside
              reachable).and (allocate_fills record content)).mono ?_)
            rintro id between ⟨⟨rfl, progress⟩, fills_new⟩
            have numbered : (later ++ [key])[later.length]? = some key :=
              List.getElem?_concat_length
            have describes : table.Describes later key content := ⟨record, found, known, decoded⟩
            refine ensures_bind (((define_ensures progress numbered (describes.append [key])).and
              (define_eq _ _)).mono ?_)
            rintro _ _ ⟨progress, rfl⟩
            refine ensures_pure ⟨later ++ [key], ?_, fills.trans fills_new, progress, numbered⟩
            exact .constant grows found (by simp [tagged, Tag.isConstant]) known
        next =>
          split
          · exact ensures_throw _
          · exact ensures_throw _

/-! ### Globals, aliases and functions -/

section

variable (indexes : source.Indexes table) (reachable : table.Reachable key)
  (progress : Progress table [] order state)

theorem operand_resolves (indexes : source.Indexes table) (reachable : table.Reachable key) :
    Resolves table [] (operand source) key :=
  operandWithin_resolves indexes [] key reachable

include progress

private theorem define_idOf_ensures {content : Content}
    (describes : table.Describes order key content) :
    Ensures (do define (← idOf key) content) state fun _ =>
      Extends table [] order state fun later after =>
      HasContent later after key := by
  refine ensures_bind ((idOf_ensures progress key).mono ?_)
  rintro id _ ⟨rfl, numbered⟩
  refine ((define_ensures progress numbered describes).and (define_eq id content)).mono ?_
  rintro _ _ ⟨progress, rfl⟩
  exact ⟨order, .refl, .insert _ id content, progress, id, numbered, by simp⟩

include indexes

theorem linkArgument_ensures (tagged : table.HasTag (· = .argument) key) :
    Ensures (linkArgument source key) state fun _ => Extends table [] order state fun later after =>
      HasContent later after key := by
  refine ensures_bind (ensures_lift fun record looked_up => ?_)
  refine ensures_bind (ensures_lift fun fields read => ?_)
  have found := (record_eq_ok_iff indexes).mp looked_up
  have tag : record.tag = .argument := by simpa using tagged.of_record found
  refine define_idOf_ensures progress ⟨record, found, ?_, ?_⟩
  · simp [ValueRecord.references, tag]
  · cases payload : record.payload <;> simp_all [argumentFields, ValueRecord.decode]

include reachable

theorem linkGlobal_ensures (tagged : table.HasTag (· = .globalVariable) key) :
    Ensures (linkGlobal source key) state fun _ => Extends table [] order state fun later after =>
      HasContent later after key := by
  refine ensures_bind (ensures_lift fun record looked_up => ?_)
  have found := (record_eq_ok_iff indexes).mp looked_up
  have tag : record.tag = .globalVariable := by simpa using tagged.of_record found
  split
  next fields payload =>
    have references := record.references_of_global tag payload
    refine ensures_bind_extends (option_mapM_resolves progress fields.initializer ?_) ?_
    · intro inner member
      exact operand_resolves indexes (.reference reachable found (references ▸ member))
    · rintro initializer later state _ progress ⟨known, rfl⟩
      -- The initializer was linked just now, so its number is that of the later order.
      refine define_idOf_ensures progress ⟨record, found, references ▸ known, ?_⟩
      simp [ValueRecord.decode, tag, payload]
  next => exact ensures_throw _

theorem linkAlias_ensures (tagged : table.HasTag (· = .globalAlias) key) :
    Ensures (linkAlias source key) state fun _ => Extends table [] order state fun later after =>
      HasContent later after key := by
  refine ensures_bind (ensures_lift fun record looked_up => ?_)
  have found := (record_eq_ok_iff indexes).mp looked_up
  have tag : record.tag = .globalAlias := by simpa using tagged.of_record found
  split
  next fields payload =>
    have references := record.references_of_alias tag payload
    have aliasee_reachable : table.Reachable fields.aliasee :=
      .reference reachable found (by simp [references])
    refine ensures_bind_extends (operand_resolves indexes aliasee_reachable order state progress) ?_
    rintro id later state _ progress numbered
    refine define_idOf_ensures progress ⟨record, found, ?_, ?_⟩
    · simpa [references] using List.mem_of_getElem? numbered
    · simp [ValueRecord.decode, tag, payload, progress.idxOf_eq numbered]
  next => exact ensures_throw _

/-- Targets are compared by number, and different keys that have numbers have different ones. -/
theorem linkBodyInstruction_ensures {blocks : List Key} (known_blocks : blocks ⊆ order)
    (tagged : table.HasTag Tag.isInstruction key) :
    Ensures (linkBodyInstruction source (blocks.map order.idxOf) key) state fun _ =>
      Extends table [] order state fun later after =>
        HasContent later after key ∧ table.JumpsWithin blocks key := by
  refine ensures_bind (ensures_lift fun record looked_up => ?_)
  refine ensures_bind (ensures_lift fun fields read => ?_)
  have found := (record_eq_ok_iff indexes).mp looked_up
  obtain ⟨references, decodes⟩ := instructionFields_spec (tagged.of_record found) read
  refine ensures_bind_extends (linkInstruction_ensures progress record.tag fields ?_) ?_
  · intro inner member
    exact operand_resolves indexes (.reference reachable found (references ▸ member))
  · rintro instruction later state grows progress ⟨known, decoded⟩
    refine ensures_bind (ensures_lift fun _ checked => ?_)
    -- The blocks have kept their numbers while the operands were linked.
    have inside : instruction.successorBlocks ⊆ blocks.map later.idxOf := by
      rw [grows.map_idxOf known_blocks]
      exact Instruction.checkTargets_eq_ok_iff.mp checked
    have jumps : table.JumpsWithin blocks key := by
      intro other opcode other_found tag target member
      obtain rfl := Option.some.inj (found.symm.trans other_found)
      rw [references] at member
      rw [tag] at decoded
      rw [(Instruction.decodeOpcode_spec decoded).2, Opcode.targets_map] at inside
      -- A target and a block with the same number have the same key.
      obtain ⟨block, listed, same⟩ := List.mem_map.mp (inside (List.mem_map_of_mem member))
      exact (List.idxOf_inj (grows.subset (known_blocks listed))).mp same ▸ listed
    refine (define_idOf_ensures progress ⟨record, found, references ▸ known, ?_⟩).mono
      fun _ _ extended => extended.mono fun _ _ filled => ⟨filled, jumps⟩
    rw [decodes, decoded]
    rfl

/-- A block and its instructions get their contents, and control goes from them to the given blocks
only. -/
theorem linkBlock_ensures {blocks : List Key} (known_blocks : blocks ⊆ order)
    (is_block : table.IsBlock key) :
    Ensures (linkBlock source (blocks.map order.idxOf) key) state fun _ =>
      Extends table [] order state fun later after =>
        (∀ inner ∈ table.blockKeys key, HasContent later after inner) ∧
          ∀ inner ∈ table.instructionKeys key, table.JumpsWithin blocks inner := by
  obtain ⟨record, fields, found, tag, payload, instructions⟩ := is_block
  have read : blockFields source key = .ok fields :=
    (blockFields_eq_ok_iff indexes).mpr ⟨record, found, payload⟩
  have references := record.references_of_block tag payload
  rw [linkBlock, read, Table.blockKeys_eq_cons, Table.instructionKeys_eq found payload]
  refine ensures_bind (ensures_lift fun _ same => ?_)
  obtain rfl := Except.ok.inj same
  have lasting : ∀ inner ∈ fields.instructions, Lasting table fun later after =>
      HasContent later after inner ∧ table.JumpsWithin blocks inner :=
    fun inner _ => (lasting_hasContent table inner).and (lasting_const table _)
  refine ensures_bind_extends (forM_extends fields.instructions lasting ?_ progress) ?_
  · intro inner member later between grows progress
    -- The numbers of the blocks were looked up before, and they are still the same.
    rw [← grows.map_idxOf known_blocks]
    exact linkBodyInstruction_ensures indexes (reachable.in_block found tag payload member) progress
      (List.Subset.trans known_blocks grows.subset) (instructions inner member)
  · rintro _ later state _ progress linked
    refine ensures_bind ((mapM_idOf_ensures progress fields.instructions).mono ?_)
    rintro ids _ ⟨rfl, known, rfl⟩
    -- The block itself comes after its instructions, whose contents last.
    have describes : table.Describes later key
        (.basicBlock { instructions := fields.instructions.map later.idxOf }) := by
      refine ⟨record, found, references ▸ known, ?_⟩
      simp [ValueRecord.decode, tag, payload]
    refine (Ensures.carry (define_idOf_ensures progress describes)
      (lasting_forall lasting) linked).mono
      fun _ _ extended =>
        extended.mono fun _ _ both => ⟨?_, fun inner member => (both.1 inner member).2⟩
    exact List.forall_mem_cons.mpr ⟨both.2, fun inner member => (both.1 inner member).1⟩

/-- A function and all its parts get their contents, and control stays inside of it. -/
theorem linkFunction_ensures (is_function : table.IsFunction key) :
    Ensures (linkFunction source key) state fun _ => Extends table [] order state fun later after =>
      (∀ inner ∈ key :: table.bodyKeys key, HasContent later after inner) ∧
        table.BranchesInside key := by
  obtain ⟨record, fields, found, tag, payload, arguments, blocks⟩ := is_function
  have read : functionFields source key = .ok fields :=
    (functionFields_eq_ok_iff indexes).mpr ⟨record, found, payload⟩
  have references := record.references_of_function tag payload
  rw [linkFunction, read]
  refine ensures_bind (ensures_lift fun _ same => ?_)
  obtain rfl := Except.ok.inj same
  have arguments_last := lasting_forall fun inner (_ : inner ∈ fields.arguments) =>
    lasting_hasContent table inner
  refine ensures_bind_extends
    (forM_extends fields.arguments (fun inner _ => lasting_hasContent table inner) ?_ progress) ?_
  · intro inner member later between _ progress
    exact linkArgument_ensures indexes progress (arguments inner member)
  rintro _ later state _ progress arguments_filled
  -- The blocks have numbers, and now the instructions in them are linked with these as the only
  -- targets.
  refine ensures_bind ((mapM_idOf_ensures progress fields.blocks).mono ?_)
  rintro ids _ ⟨rfl, known_blocks, rfl⟩
  have block_lasts : ∀ block ∈ fields.blocks, Lasting table fun later after =>
      (∀ inner ∈ table.blockKeys block, HasContent later after inner) ∧
        ∀ inner ∈ table.instructionKeys block, table.JumpsWithin fields.blocks inner :=
    fun block _ => (lasting_forall fun inner _ => lasting_hasContent table inner).and
      (lasting_const table _)
  refine ensures_bind_extends (Ensures.carry (forM_extends fields.blocks block_lasts ?_ progress)
    arguments_last arguments_filled) ?_
  · intro inner member latest between grows progress
    have inner_reachable := reachable.in_function found tag payload (List.mem_append_right _ member)
    rw [← grows.map_idxOf known_blocks]
    exact linkBlock_ensures indexes inner_reachable progress
      (List.Subset.trans known_blocks grows.subset) (blocks inner member)
  rintro _ latest state grows progress parts_filled
  refine ensures_bind ((mapM_idOf_ensures progress fields.arguments).mono ?_)
  rintro ids _ ⟨rfl, known_arguments, rfl⟩
  -- The numbers of the blocks were looked up before the bodies, and have not changed since.
  rw [← grows.map_idxOf known_blocks]
  have parts_last := arguments_last.and (lasting_forall block_lasts)
  refine (Ensures.carry (define_idOf_ensures progress ⟨record, found, ?_, ?_⟩) parts_last
    parts_filled).mono fun _ _ extended => extended.mono ?_
  · rw [references]
    exact List.append_subset.mpr ⟨known_arguments, List.Subset.trans known_blocks grows.subset⟩
  · simp [ValueRecord.decode, tag, payload]
  · rintro last after ⟨⟨arguments_filled, blocks_filled⟩, filled⟩
    constructor
    · rw [Table.bodyKeys_eq found payload]
      refine List.forall_mem_cons.mpr ⟨filled, fun inner member => ?_⟩
      rcases List.mem_append.mp member with argument | part
      · exact arguments_filled inner argument
      · obtain ⟨block, listed, inside⟩ := List.mem_flatMap.mp part
        exact (blocks_filled block listed).1 inner inside
    · intro other other_fields other_found other_payload block listed
      obtain rfl := Option.some.inj (found.symm.trans other_found)
      obtain rfl := Table.Payload.function.inj (payload.symm.trans other_payload)
      exact (blocks_filled block listed).2

end

/-- Everything that the lists hold gets its content, and control stays inside of every function. -/
theorem linkContents_ensures (indexes : source.Indexes table) (tagged : table.WellTagged)
    (progress : Progress table [] order state) :
    Ensures (linkContents source table) state fun _ =>
      Extends table [] order state fun later after =>
      (∀ key ∈ table.listedKeys, HasContent later after key) ∧
        ∀ key ∈ table.functions, table.BranchesInside key := by
  have filled_lasts := fun keys : List Key =>
    lasting_forall fun key (_ : key ∈ keys) => lasting_hasContent table key
  refine ensures_bind_extends
    (forM_extends table.globals (fun key _ => lasting_hasContent table key) ?_ progress) ?_
  · intro key listed later between _ progress
    exact linkGlobal_ensures indexes (.global listed) progress (tagged.globals key listed)
  rintro _ _ _ _ progress globals
  refine ensures_bind_extends
    (Ensures.carry
      (forM_extends table.aliases (fun key _ => lasting_hasContent table key) ?_ progress)
      (filled_lasts table.globals) globals) ?_
  · intro key listed later between _ progress
    exact linkAlias_ensures indexes (.globalAlias listed) progress (tagged.aliases key listed)
  rintro _ _ _ _ progress both
  -- What the lists before got lasts while the functions are linked.
  have both_last := (filled_lasts table.globals).and (filled_lasts table.aliases)
  have function_lasts : ∀ key ∈ table.functions, Lasting table fun later after =>
      (∀ inner ∈ key :: table.bodyKeys key, HasContent later after inner) ∧
        table.BranchesInside key :=
    fun key _ => (filled_lasts (key :: table.bodyKeys key)).and (lasting_const table _)
  refine (Ensures.carry (forM_extends table.functions function_lasts ?_ progress)
    both_last both).mono fun _ _ extended => extended.mono ?_
  · intro key listed later between _ progress
    exact linkFunction_ensures indexes (.function listed) progress (tagged.functions key listed)
  · rintro last after ⟨⟨globals, aliases⟩, functions⟩
    refine ⟨fun key listed => ?_, fun key listed => (functions key listed).2⟩
    simp only [Table.listedKeys, List.mem_append, List.mem_flatMap] at listed
    rcases listed with ((global | other_name) | function) | ⟨function, listed, inner⟩
    · exact globals key global
    · exact aliases key other_name
    · exact (functions key function).1 key List.mem_cons_self
    · exact (functions function listed).1 key (List.mem_cons_of_mem _ inner)

end Link

end FlowIR
