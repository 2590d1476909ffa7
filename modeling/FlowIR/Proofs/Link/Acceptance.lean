import FlowIR.Proofs.Link.WellFormed

/-!
# Which tables can be linked

A well-formed table can be linked. Wherever linking might stop, what it established before and what
is well-formed about the next record together say that it goes on. So the tables that can be linked
are exactly the well-formed ones.
-/
namespace FlowIR

namespace Link

open Table (Key ValueRecord InstructionFields ConstantFields)

variable {source : Source} {table : Table} {enclosing order : List Key} {state : State} {key : Key}

/-! ### Single steps -/

private theorem allocate_succeeds (indexes : source.Indexes table) {record : ValueRecord}
    {ty : TypeId} (typed : table.typeId? record.ty = some ty) :
    Succeeds (allocate source record) state := by
  have looked_up : lookupType source.typeIds record.ty = .ok ty :=
    lookupType_eq_ok_iff.mpr ((indexes.types record.ty).trans typed)
  exact succeeds_bind (succeeds_lift looked_up) fun _ _ _ => ⟨_, _, rfl⟩

private theorem idOf_succeeds (progress : Progress table enclosing order state)
    (member : key ∈ order) :
    Succeeds (idOf key) state := by
  obtain ⟨id, numbered⟩ := List.mem_iff_getElem?.mp member
  have known : state.ids[key]? = some id := (progress.numbered key id).mpr numbered
  refine succeeds_bind succeeds_get (ensures_get ?_)
  rw [known]
  exact succeeds_pure id

private theorem mapM_idOf_succeeds (progress : Progress table enclosing order state)
    {keys : List Key} (known : keys ⊆ order) : Succeeds (keys.mapM idOf) state := by
  refine succeeds_mapM (· = state) keys ?_ ?_ rfl
  · rintro key _ _ rfl
    exact (idOf_ensures progress key).mono fun _ _ unchanged => unchanged.1
  · rintro key member _ rfl
    exact idOf_succeeds progress (known member)

private theorem define_idOf_succeeds (progress : Progress table enclosing order state)
    (member : key ∈ order) (content : Content) : Succeeds (do define (← idOf key) content) state :=
  succeeds_bind (idOf_succeeds progress member) fun _ _ _ => succeeds_modify _

/-! ### Numbering the lists -/

/-- A loop over keys numbers them all if none of them has a number yet. -/
theorem forM_registers_succeeds (keysOf : Key → List Key) (good : Key → Prop)
    {body : Key → LinkM Unit} (keys : List Key)
    (registers : ∀ key ∈ keys, ∀ order state, Progress table [] order state →
      Ensures (body key) state fun _ after =>
        Progress table [] (order ++ keysOf key) after ∧ good key)
    (each : ∀ key ∈ keys, ∀ later state, order ⊆ later → Progress table [] later state →
      (later ++ keysOf key).Nodup → Succeeds (body key) state)
    (progress : Progress table [] order state) (distinct : (order ++ keys.flatMap keysOf).Nodup) :
    Succeeds (keys.forM body) state := by
  induction keys generalizing order state with
  | nil => exact succeeds_pure ()
  | cons key rest ih =>
    rw [List.flatMap_cons, ← List.append_assoc] at distinct
    have first := each key List.mem_cons_self order state (List.Subset.refl order) progress
      (List.nodup_append.mp distinct).1
    refine succeeds_bind first ((registers key List.mem_cons_self order state progress).mono ?_)
    rintro _ after ⟨progress, _⟩
    -- The loop goes on from a longer list, which still holds what was numbered before the loop.
    refine ih (fun other member => registers other (List.mem_cons_of_mem key member)) ?_
      progress distinct
    intro other member later state longer
    exact each other (List.mem_cons_of_mem key member) later state (List.append_subset.mp longer).1

/-- The same where each step numbers its own key and nothing else. -/
theorem forM_discard_succeeds {α : Type} {expected : Tag → Bool} {action : Key → LinkM α}
    {keys : List Key}
    (registers : ∀ {key order state}, Progress table [] order state → table.Reachable key →
      Ensures (action key) state fun _ after => Progress table [] (order ++ [key]) after ∧
      table.HasTag expected key)
    (each : ∀ {key order state}, Progress table [] order state → table.Reachable key →
      table.HasTag expected key → key ∉ order → Succeeds (action key) state)
    (progress : Progress table [] order state) (reachable : ∀ key ∈ keys, table.Reachable key)
    (tagged : ∀ key ∈ keys, table.HasTag expected key) (distinct : (order ++ keys).Nodup) :
    Succeeds (keys.forM fun key => discard (action key)) state ∧
      Ensures (keys.forM fun key => discard (action key)) state fun _ after =>
        Progress table [] (order ++ keys) after := by
  have registers_one : ∀ key ∈ keys, ∀ order state, Progress table [] order state →
      Ensures (discard (action key)) state fun _ after =>
        Progress table [] (order ++ [key]) after ∧ table.HasTag expected key :=
    fun key member _ _ progress => ensures_discard (registers progress (reachable key member))
  constructor
  · apply forM_registers_succeeds (fun key => [key]) (table.HasTag expected) keys
      registers_one _ progress
    · simpa using distinct
    · intro key member later state _ progress distinct
      -- No key is both registered already and still to be registered.
      have fresh : key ∉ later :=
        fun old => List.disjoint_of_nodup_append distinct old List.mem_cons_self
      exact succeeds_map (each progress (reachable key member) (tagged key member) fresh)
  · refine (forM_registers (fun key => [key]) (table.HasTag expected) keys registers_one
      progress).mono ?_
    rintro _ after ⟨progress, _⟩
    simpa using progress

section

variable (indexes : source.Indexes table) (well_formed : table.WellFormed)
include indexes well_formed

private theorem register_succeeds {expected : Tag → Bool} (progress : Progress table [] order state)
    (reachable : table.Reachable key) (tagged : table.HasTag expected key) (fresh : key ∉ order) :
    Succeeds (register source expected key) state := by
  obtain ⟨record, ty, found, typed, _⟩ := well_formed.usable key reachable
  have tag : expected record.tag = true := tagged.of_record found
  have looked_up : source.record key = .ok record := (record_eq_ok_iff indexes).mpr found
  refine succeeds_bind (succeeds_lift looked_up) (ensures_lift fun _ same => ?_)
  obtain rfl := Except.ok.inj (looked_up.symm.trans same)
  rw [if_neg (by simp [tag])]
  refine succeeds_bind succeeds_get (ensures_get ?_)
  rw [if_neg (progress.mem_iff.not.mp fresh)]
  exact allocate_succeeds indexes typed

private theorem registerPart_succeeds {expected : Tag → Bool} (owner : ValueId)
    (progress : Progress table [] order state) (reachable : table.Reachable key)
    (tagged : table.HasTag expected key) (fresh : key ∉ order) :
    Succeeds (registerPart source expected owner key) state := by
  refine succeeds_bind (register_succeeds indexes well_formed progress reachable tagged fresh) ?_
  exact fun _ _ _ => succeeds_bind (succeeds_modify _) fun _ _ _ => succeeds_pure _

/-- The arguments of a function, or the instructions of a block. -/
theorem forM_registerPart_succeeds {expected : Tag → Bool} (owner : ValueId) {keys : List Key}
    (progress : Progress table [] order state) (reachable : ∀ key ∈ keys, table.Reachable key)
    (tagged : ∀ key ∈ keys, table.HasTag expected key) (distinct : (order ++ keys).Nodup) :
    Succeeds (keys.forM fun key => discard (registerPart source expected owner key)) state ∧
      Ensures (keys.forM fun key => discard (registerPart source expected owner key)) state
        fun _ after => Progress table [] (order ++ keys) after :=
  forM_discard_succeeds (fun progress => registerPart_ensures indexes progress owner)
    (registerPart_succeeds indexes well_formed owner) progress reachable tagged distinct

private theorem registerBlock_succeeds (function : ValueId)
    (progress : Progress table [] order state) (reachable : table.Reachable key)
    (is_block : table.IsBlock key) (distinct : (order ++ table.blockKeys key).Nodup) :
    Succeeds (registerBlock source function key) state := by
  obtain ⟨record, fields, found, tag, payload, instructions⟩ := is_block
  have inner_reachable : ∀ inner ∈ fields.instructions, table.Reachable inner :=
    fun inner => reachable.in_block found tag payload
  have read : blockFields source key = .ok fields :=
    (blockFields_eq_ok_iff indexes).mpr ⟨record, found, payload⟩
  -- The block itself comes first, then its instructions.
  rw [Table.blockKeys_eq found payload, List.append_cons] at distinct
  have fresh : key ∉ order := fun old =>
    List.disjoint_of_nodup_append (List.nodup_append.mp distinct).1 old List.mem_cons_self
  refine succeeds_bind (registerPart_succeeds indexes well_formed function progress reachable
    ⟨record, found, by simp [tag]⟩ fresh) ?_
  refine (registerPart_ensures indexes progress function reachable).mono ?_
  rintro block after ⟨progress, _⟩
  refine succeeds_bind (succeeds_lift read) (ensures_lift fun _ same => ?_)
  obtain rfl := Except.ok.inj (read.symm.trans same)
  exact (forM_registerPart_succeeds indexes well_formed block progress inner_reachable instructions
    distinct).1

private theorem registerBody_succeeds (progress : Progress table [] order state)
    (reachable : table.Reachable key) (is_function : table.IsFunction key) (known : key ∈ order)
    (distinct : (order ++ table.bodyKeys key).Nodup) :
    Succeeds (registerBody source key) state := by
  obtain ⟨record, fields, found, tag, payload, arguments, blocks⟩ := is_function
  have inner_reachable : ∀ inner ∈ fields.arguments ++ fields.blocks, table.Reachable inner :=
    fun inner => reachable.in_function found tag payload
  have argument_reachable :=
    fun inner member => inner_reachable inner (List.mem_append_left _ member)
  have block_reachable := fun inner member => inner_reachable inner (List.mem_append_right _ member)
  have read : functionFields source key = .ok fields :=
    (functionFields_eq_ok_iff indexes).mpr ⟨record, found, payload⟩
  -- The arguments are registered before the blocks.
  rw [Table.bodyKeys_eq found payload, ← List.append_assoc] at distinct
  refine succeeds_bind (idOf_succeeds progress known) ((idOf_ensures progress key).mono ?_)
  rintro function _ ⟨rfl, _⟩
  refine succeeds_bind (succeeds_lift read) (ensures_lift fun _ same => ?_)
  obtain rfl := Except.ok.inj (read.symm.trans same)
  obtain ⟨succeeds, registers⟩ := forM_registerPart_succeeds indexes well_formed function progress
    argument_reachable arguments (List.nodup_append.mp distinct).1
  refine succeeds_bind succeeds (registers.mono fun _ _ progress => ?_)
  apply forM_registers_succeeds table.blockKeys table.IsBlock fields.blocks _ _ progress distinct
  · intro inner member order state progress
    exact registerBlock_ensures indexes progress function (block_reachable inner member)
  · intro inner member later state _ progress
    exact registerBlock_succeeds indexes well_formed function progress
      (block_reachable inner member) (blocks inner member)

/-- One of the lists of the module itself. -/
theorem forM_register_succeeds {expected : Tag → Bool} {keys : List Key}
    (progress : Progress table [] order state) (reachable : ∀ key ∈ keys, table.Reachable key)
    (tagged : ∀ key ∈ keys, table.HasTag expected key) (distinct : (order ++ keys).Nodup) :
    Succeeds (keys.forM fun key => discard (register source expected key)) state ∧
      Ensures (keys.forM fun key => discard (register source expected key)) state
        fun _ after => Progress table [] (order ++ keys) after :=
  forM_discard_succeeds (fun progress => register_ensures indexes progress)
    (register_succeeds indexes well_formed) progress reachable tagged distinct

private theorem registerAll_succeeds : Succeeds (registerAll source table) {} := by
  have tagged := well_formed.well_tagged
  have function_tagged : ∀ key ∈ table.functions, table.HasTag (· = .function) key := by
    intro key listed
    obtain ⟨record, _, found, tag, _⟩ := tagged.functions key listed
    exact ⟨record, found, by simp [tag]⟩
  have all_distinct := well_formed.distinct_listed
  rw [Table.listedKeys] at all_distinct
  -- The lists before the bodies, then those before the functions, then the first one.
  have three_distinct := (List.nodup_append.mp all_distinct).1
  have two_distinct := (List.nodup_append.mp three_distinct).1
  have one_distinct := (List.nodup_append.mp two_distinct).1
  obtain ⟨succeeds, registers⟩ :=
    forM_register_succeeds indexes well_formed (progress_initial table)
      (fun _ listed => .global listed) tagged.globals one_distinct
  refine succeeds_bind succeeds (registers.mono fun _ _ progress => ?_)
  obtain ⟨succeeds, registers⟩ := forM_register_succeeds indexes well_formed progress
    (fun _ listed => .globalAlias listed) tagged.aliases two_distinct
  refine succeeds_bind succeeds (registers.mono fun _ _ progress => ?_)
  obtain ⟨succeeds, registers⟩ := forM_register_succeeds indexes well_formed progress
    (fun _ listed => .function listed) function_tagged three_distinct
  refine succeeds_bind succeeds (registers.mono fun _ _ progress => ?_)
  apply forM_registers_succeeds table.bodyKeys table.IsFunction table.functions _ _
    progress all_distinct
  · intro key listed order state progress
    exact registerBody_ensures indexes progress (function_tagged key listed) (.function listed)
  · intro key listed later state longer progress
    exact registerBody_succeeds indexes well_formed progress (.function listed)
      (tagged.functions key listed) (longer (List.mem_append_right _ listed))

end

/-! ### Contents, given how operands are linked -/

/-- Linking this operand gives it its number, once the lists are numbered. -/
structure Links (table : Table) (enclosing : List Key) (operand : Key → LinkM ValueId)
    (key : Key) : Prop where
  resolves : Resolves table enclosing operand key
  succeeds : ∀ order state, table.listedKeys ⊆ order → Progress table enclosing order state →
    Succeeds (operand key) state

/-- What follows an action goes on from the numbers after it. -/
theorem succeeds_bind_extends {α β : Type} {first : LinkM α} {next : α → LinkM β}
    {fact : α → List Key → State → Prop} (starts : Succeeds first state)
    (ensures : Ensures first state fun result => Extends table enclosing order state (fact result))
    (continues : ∀ result later between, Grows table order later →
      Progress table enclosing later between → fact result later between →
      Succeeds (next result) between) : Succeeds (first >>= next) state := by
  refine succeeds_bind starts (ensures.mono ?_)
  rintro result between ⟨later, grows, _, progress, holds⟩
  exact continues result later between grows progress holds

section

variable {body : Key → LinkM Unit} {good : Key → List Key → State → Prop} {keys : List Key}
  (progress : Progress table enclosing order state)
  (ensures : ∀ key ∈ keys, ∀ later between, Grows table order later →
    Progress table enclosing later between →
    Ensures (body key) between fun _ => Extends table enclosing later between (good key))
  (each : ∀ key ∈ keys, ∀ later between, Grows table order later →
    Progress table enclosing later between → Succeeds (body key) between)
include progress ensures each

private theorem forM_extends_succeeds : Succeeds (keys.forM body) state := by
  apply succeeds_forM fun between => ∃ later,
    Grows table order later ∧ Progress table enclosing later between
  · rintro key member between ⟨later, grows, progress⟩
    refine (ensures key member later between grows progress).mono ?_
    rintro _ after ⟨latest, grows_later, _, progress, _⟩
    exact ⟨latest, grows.trans grows_later, progress⟩
  · rintro key member between ⟨later, grows, progress⟩
    exact each key member later between grows progress
  · exact ⟨order, .refl, progress⟩

/-- What comes after a loop goes on from the numbers after it. -/
theorem forM_bind_succeeds {α : Type} {next : Unit → LinkM α}
    (continues : ∀ later between, Grows table order later → Progress table enclosing later between →
      Succeeds (next ()) between) : Succeeds (keys.forM body >>= next) state := by
  -- What the steps establish about their keys is not needed here.
  have forgets : ∀ key ∈ keys, ∀ later between, Grows table order later →
      Progress table enclosing later between →
      Ensures (body key) between fun _ => Extends table enclosing later between fun _ _ => True :=
    fun key member later between grows progress =>
      (ensures key member later between grows progress).mono
      fun _ _ extended => extended.mono fun _ _ _ => trivial
  apply succeeds_bind_extends (forM_extends_succeeds progress ensures each)
    (forM_extends keys (fun _ _ _ _ _ _ _ _ _ => trivial) forgets progress)
  exact fun _ later between grows progress _ => continues later between grows progress

end

private theorem constantFields_succeeds {record : ValueRecord} {tag : ConstantTag}
    (tagged : record.tag = .constant tag) (shape : record.HasShape) (other : tag ≠ .inlineAsm) :
    ∃ fields, constantFields record = .ok fields ∧ fields.Fit tag := by
  obtain ⟨key, _, name, ty, location, payload⟩ := record
  obtain rfl := tagged
  cases payload with
  | constant fields => exact ⟨fields, rfl, by simpa [ValueRecord.HasShape] using shape⟩
  | none => exact ⟨{}, rfl, by simpa [ValueRecord.HasShape] using shape⟩
  | _ => simp_all [ValueRecord.HasShape]

private theorem instructionFields_succeeds {record : ValueRecord} {opcode : Opcode}
    (tagged : record.tag = .instruction opcode) (shape : record.HasShape) :
    ∃ fields, instructionFields record = .ok fields ∧ fields.Fit opcode := by
  obtain ⟨key, _, name, ty, location, payload⟩ := record
  obtain rfl := tagged
  cases payload with
  | instruction fields => exact ⟨fields, rfl, shape⟩
  | none => exact ⟨{}, rfl, shape⟩
  | _ => exact shape.elim

section

variable {operand : Key → LinkM ValueId} (listed : table.listedKeys ⊆ order)
  (progress : Progress table enclosing order state)
include listed progress

private theorem mapM_links {keys : List Key}
    (each : ∀ key ∈ keys, Links table enclosing operand key) :
    Succeeds (keys.mapM operand) state := by
  apply succeeds_mapM (fun state => ∃ order,
    table.listedKeys ⊆ order ∧ Progress table enclosing order state)
  · rintro key member state ⟨order, listed, progress⟩
    refine ((each key member).resolves order state progress).mono ?_
    rintro _ after ⟨later, grows, _, progress, _⟩
    exact ⟨later, List.Subset.trans listed grows.subset, progress⟩
  · rintro key member state ⟨order, listed, progress⟩
    exact (each key member).succeeds order state listed progress
  · exact ⟨order, listed, progress⟩

private theorem option_mapM_links {operand? : Option Key}
    (each : ∀ key ∈ operand?.toList, Links table enclosing operand key) :
    Succeeds (operand?.mapM operand) state := by
  cases operand? with
  | none => exact succeeds_pure none
  | some key => exact succeeds_map ((each key (by simp)).succeeds order state listed progress)

private theorem linkInstruction_succeeds {tag : Tag} {opcode : Opcode} {fields : InstructionFields}
    (tagged : tag = .instruction opcode) (fit : fields.Fit opcode)
    (each : ∀ key ∈ fields.operands, Links table enclosing operand key) :
    Succeeds (linkInstruction operand tag fields) state := by
  refine succeeds_bind (mapM_links listed progress each)
    ((mapM_resolves progress fields.operands fun key member => (each key member).resolves).mono ?_)
  rintro ids after ⟨later, _, _, _, _, rfl⟩
  -- There are as many numbers as there were keys, and only this counts.
  obtain ⟨instruction, decoded⟩ :=
    (Instruction.decode_succeeds_iff tag fields (fields.operands.map later.idxOf)).mpr
      ⟨opcode, tagged, by simpa using fit.1, fit.2⟩
  exact succeeds_lift decoded

private theorem linkConstant_succeeds {record : ValueRecord} {fields : ConstantFields}
    {tag : ConstantTag} (fit : fields.Fit tag)
    (each : ∀ key ∈ fields.references tag, Links table enclosing operand key) :
    Succeeds (linkConstant operand record fields tag) state := by
  have present_succeeds : ∀ {α : Type} {given : Option α}, given.isSome = true →
      Succeeds (liftM (present record given) : LinkM α) state := by
    intro _ given some
    obtain ⟨value, rfl⟩ := Option.isSome_iff_exists.mp some
    exact succeeds_lift rfl
  cases tag with
  | aggregateZero | pointerNull | undef => exact succeeds_pure _
  | inlineAsm => exact fit.elim
  | int | float | string => exact succeeds_bind (present_succeeds fit) fun _ _ _ => succeeds_pure _
  | array | struct | vector =>
    exact succeeds_bind (mapM_links listed progress each) fun _ _ _ => succeeds_pure _
  | blockAddress =>
    refine succeeds_bind (mapM_links listed progress each)
      ((mapM_resolves progress fields.operands fun key member => (each key member).resolves).mono
        ?_)
    rintro ids after ⟨later, _, _, _, _, rfl⟩
    -- There are as many numbers as keys, so there is a function and a block among them.
    obtain ⟨constant, decoded⟩ :=
      (fields.decode_succeeds_iff later.idxOf record .blockAddress).mpr fit
    exact succeeds_lift decoded
  | expr =>
    obtain ⟨expr, opcode, expression, tagged, fit⟩ := fit
    -- The references of the constant are the operands of its expression.
    simp only [ConstantFields.references, expression] at each
    refine succeeds_bind (present_succeeds (by simp [expression]))
      (ensures_lift fun given same => ?_)
    obtain rfl : expr = given := by simpa [present, expression] using same
    exact succeeds_bind (linkInstruction_succeeds listed progress tagged fit each)
      fun _ _ _ => succeeds_pure _

private theorem linkConstantContent_succeeds {record : ValueRecord} {tag : ConstantTag}
    (tagged : record.tag = .constant tag) (shape : record.HasShape)
    (each : ∀ key ∈ record.references, Links table enclosing operand key) :
    Succeeds (linkConstantContent operand record tag) state := by
  by_cases assembly : tag = .inlineAsm
  · subst assembly
    cases payload : record.payload <;> simp only [ValueRecord.HasShape, tagged, payload] at shape
    case inlineAsm fields =>
      simp only [linkConstantContent, payload]
      exact succeeds_pure _
    all_goals exact absurd shape (by simp [ConstantFields.Fit])
  · rw [linkConstantContent_eq operand record assembly]
    obtain ⟨fields, read, fit⟩ := constantFields_succeeds tagged shape assembly
    rw [(constantFields_spec tagged read).1] at each
    refine succeeds_bind (succeeds_lift read) (ensures_lift fun _ same => ?_)
    obtain rfl := Except.ok.inj (read.symm.trans same)
    exact succeeds_bind (linkConstant_succeeds listed progress fit each) fun _ _ _ =>
      succeeds_pure _

end

/-! ### Operands -/

/-- By the same induction as before. Every enclosing constant leads to the key, so the key is none
of them. -/
theorem operandWithin_succeeds (indexes : source.Indexes table) (well_formed : table.WellFormed)
    (enclosing : List Key) (key : Key) (reachable : table.Reachable key)
    (inside : ∀ outer ∈ enclosing, Relation.TransGen table.Contains outer key) :
    ∀ order state, table.listedKeys ⊆ order → Progress table enclosing order state →
      Succeeds (operandWithin source enclosing key) state := by
  induction enclosing, key using operandWithin.induct source with
  | case1 enclosing key ih =>
    intro order state listed progress
    rw [operandWithin]
    refine succeeds_bind succeeds_get (ensures_get ?_)
    split
    next id _ => exact succeeds_pure id
    next unknown =>
      have fresh : key ∉ order := by
        rw [progress.mem_iff, Std.ExtTreeMap.mem_iff_isSome_getElem?, unknown]
        simp
      -- What has no number is not listed, so it has to be a constant.
      obtain ⟨record, ty, found, typed, shape, listed_or_constant⟩ :=
        well_formed.usable key reachable
      have is_constant := listed_or_constant.resolve_left fun early => fresh (listed early)
      split
      next missing => simp [indexes.records, found] at missing
      next other looked_up =>
        obtain rfl : record = other :=
          Option.some.inj (found.symm.trans ((indexes.records key).symm.trans looked_up))
        split
        next tag tagged =>
          split
          next around => exact absurd (inside key around) (well_formed.acyclic key reachable)
          next outside =>
            have inner_inside : ∀ inner ∈ record.references, ∀ outer ∈ key :: enclosing,
                Relation.TransGen table.Contains outer inner := by
              intro inner referred outer member
              have contains : table.Contains key inner := ⟨record, found, is_constant, referred⟩
              rcases List.mem_cons.mp member with rfl | outer_member
              · exact .single contains
              · exact (inside outer outer_member).tail contains
            have each : ∀ inner ∈ record.references,
                Links table (key :: enclosing) (operandWithin source (key :: enclosing)) inner := by
              intro inner referred
              have inner_reachable : table.Reachable inner := .reference reachable found referred
              exact ⟨operandWithin_resolves indexes _ inner inner_reachable,
                ih record looked_up outside inner inner_reachable (inner_inside inner referred)⟩
            refine succeeds_bind
              (linkConstantContent_succeeds listed (progress.enclose fresh) tagged shape each) ?_
            intro content between _
            refine succeeds_bind (allocate_succeeds indexes typed) fun id _ _ => ?_
            exact succeeds_bind (succeeds_modify _) fun _ _ _ => succeeds_pure id
        next not_constant =>
          cases tag : record.tag with
          | constant constant_tag => exact absurd tag (not_constant constant_tag)
          | _ => simp [tag, Tag.isConstant] at is_constant

/-! ### Globals, aliases and functions -/

section

variable (indexes : source.Indexes table) (well_formed : table.WellFormed)
  (listed : table.listedKeys ⊆ order) (progress : Progress table [] order state)

private theorem operand_links (indexes : source.Indexes table) (well_formed : table.WellFormed)
    (reachable : table.Reachable key) : Links table [] (operand source) key where
  resolves := operand_resolves indexes reachable
  succeeds := operandWithin_succeeds indexes well_formed [] key reachable (by simp)

/-- The record of a key, and what linking reads in it. -/
theorem record_succeeds (indexes : source.Indexes table) {record : ValueRecord}
    (found : table.record? key = some record) {α : Type} {next : ValueRecord → LinkM α}
    (continues : Succeeds (next record) state) :
    Succeeds (do next (← source.record key)) state := by
  have looked_up : source.record key = .ok record := (record_eq_ok_iff indexes).mpr found
  refine succeeds_bind (succeeds_lift looked_up) (ensures_lift fun _ same => ?_)
  exact Except.ok.inj (looked_up.symm.trans same) ▸ continues

include indexes well_formed listed progress

private theorem linkGlobal_succeeds (member : key ∈ table.globals) :
    Succeeds (linkGlobal source key) state := by
  obtain ⟨record, ty, found, _, shape, _⟩ := well_formed.usable key (.global member)
  have tag : record.tag = .globalVariable := by
    simpa using (well_formed.well_tagged.globals key member).of_record found
  have known : key ∈ order := listed (by simp [Table.listedKeys, member])
  apply record_succeeds indexes found
  cases payload : record.payload <;> simp only [ValueRecord.HasShape, tag, payload] at shape
  case global fields =>
    have references := record.references_of_global tag payload
    have each : ∀ inner ∈ fields.initializer.toList, Links table [] (operand source) inner := by
      intro inner referred
      exact operand_links indexes well_formed
        (.reference (.global member) found (references ▸ referred))
    -- The initializer may be numbered only now, but the global has its number already.
    apply succeeds_bind_extends (option_mapM_links listed progress each)
      (option_mapM_resolves progress fields.initializer fun inner referred =>
        (each inner referred).resolves)
    intro initializer later between grows progress _
    exact define_idOf_succeeds progress (grows.subset known) _

private theorem linkAlias_succeeds (member : key ∈ table.aliases) :
    Succeeds (linkAlias source key) state := by
  obtain ⟨record, ty, found, _, shape, _⟩ := well_formed.usable key (.globalAlias member)
  have tag : record.tag = .globalAlias := by
    simpa using (well_formed.well_tagged.aliases key member).of_record found
  have known : key ∈ order := listed (by simp [Table.listedKeys, member])
  apply record_succeeds indexes found
  cases payload : record.payload <;> simp only [ValueRecord.HasShape, tag, payload] at shape
  case globalAlias fields =>
    have referred : fields.aliasee ∈ record.references := by
      rw [record.references_of_alias tag payload]
      exact List.mem_singleton_self _
    have links := operand_links indexes well_formed
      (.reference (.globalAlias member) found referred)
    apply succeeds_bind_extends (links.succeeds order state listed progress)
      (links.resolves order state progress)
    intro aliasee later between grows progress _
    exact define_idOf_succeeds progress (grows.subset known) _

omit listed in
private theorem linkArgument_succeeds (reachable : table.Reachable key) (known : key ∈ order)
    (tagged : table.HasTag (· = .argument) key) : Succeeds (linkArgument source key) state := by
  obtain ⟨record, ty, found, _, shape, _⟩ := well_formed.usable key reachable
  have tag : record.tag = .argument := by simpa using tagged.of_record found
  have read : ∃ fields, argumentFields record = .ok fields := by
    cases payload : record.payload <;> simp_all [ValueRecord.HasShape, argumentFields]
  obtain ⟨fields, read⟩ := read
  apply record_succeeds indexes found
  exact succeeds_bind (succeeds_lift read)
    (ensures_lift fun _ _ => define_idOf_succeeds progress known _)

private theorem linkBodyInstruction_succeeds {blocks : List Key} (known_blocks : blocks ⊆ order)
    (reachable : table.Reachable key) (known : key ∈ order)
    (tagged : table.HasTag Tag.isInstruction key) (jumps : table.JumpsWithin blocks key) :
    Succeeds (linkBodyInstruction source (blocks.map order.idxOf) key) state := by
  obtain ⟨record, ty, found, _, shape, _⟩ := well_formed.usable key reachable
  obtain ⟨opcode, tag⟩ : ∃ opcode, record.tag = .instruction opcode := by
    have is_instruction := tagged.of_record found
    cases tag : record.tag <;> simp_all [Tag.isInstruction]
  obtain ⟨fields, read, fit⟩ := instructionFields_succeeds tag shape
  obtain ⟨references, _⟩ := instructionFields_spec (tagged.of_record found) read
  have each : ∀ inner ∈ fields.operands, Links table [] (operand source) inner := by
    intro inner referred
    exact operand_links indexes well_formed (.reference reachable found (references ▸ referred))
  apply record_succeeds indexes found
  refine succeeds_bind (succeeds_lift read) (ensures_lift fun _ same => ?_)
  obtain rfl := Except.ok.inj (read.symm.trans same)
  apply succeeds_bind_extends (linkInstruction_succeeds listed progress tag fit each)
    (linkInstruction_ensures progress record.tag fields fun inner referred =>
      (each inner referred).resolves)
  rintro instruction later between grows progress ⟨operands_known, decoded⟩
  -- The targets are among the blocks as keys, so they are as numbers.
  have inside : instruction.successorBlocks ⊆ blocks.map order.idxOf := by
    rw [tag] at decoded
    rw [(Instruction.decodeOpcode_spec decoded).2, Opcode.targets_map,
      ← grows.map_idxOf known_blocks]
    exact List.map_subset _ (references ▸ jumps record opcode found tag)
  refine succeeds_bind (succeeds_lift (Instruction.checkTargets_eq_ok_iff.mpr inside)) ?_
  exact ensures_lift fun _ _ => define_idOf_succeeds progress (grows.subset known) _

private theorem linkBlock_succeeds {blocks : List Key} (known_blocks : blocks ⊆ order)
    (reachable : table.Reachable key) (known : table.blockKeys key ⊆ order)
    (is_block : table.IsBlock key)
    (jumps : ∀ inner ∈ table.instructionKeys key, table.JumpsWithin blocks inner) :
    Succeeds (linkBlock source (blocks.map order.idxOf) key) state := by
  obtain ⟨record, fields, found, tag, payload, instructions⟩ := is_block
  have read : blockFields source key = .ok fields :=
    (blockFields_eq_ok_iff indexes).mpr ⟨record, found, payload⟩
  have inner_reachable : ∀ inner ∈ fields.instructions, table.Reachable inner :=
    fun inner => reachable.in_block found tag payload
  rw [Table.blockKeys_eq found payload, List.cons_subset] at known
  rw [Table.instructionKeys_eq found payload] at jumps
  refine succeeds_bind (succeeds_lift read) (ensures_lift fun _ same => ?_)
  obtain rfl := Except.ok.inj (read.symm.trans same)
  -- The numbers of the blocks do not change while the instructions are linked.
  apply forM_bind_succeeds progress
  · intro inner member later between grows progress
    rw [← grows.map_idxOf known_blocks]
    exact linkBodyInstruction_ensures indexes (inner_reachable inner member) progress
      (List.Subset.trans known_blocks grows.subset) (instructions inner member)
  · intro inner member later between grows progress
    rw [← grows.map_idxOf known_blocks]
    exact linkBodyInstruction_succeeds indexes well_formed (List.Subset.trans listed grows.subset)
      progress (List.Subset.trans known_blocks grows.subset) (inner_reachable inner member)
      (grows.subset (known.2 member)) (instructions inner member) (jumps inner member)
  intro later between grows progress
  refine succeeds_bind (mapM_idOf_succeeds progress (List.Subset.trans known.2 grows.subset)) ?_
  refine (mapM_idOf_ensures progress fields.instructions).mono ?_
  rintro _ _ ⟨rfl, _, _⟩
  exact define_idOf_succeeds progress (grows.subset known.1) _

private theorem linkFunction_succeeds (member : key ∈ table.functions) :
    Succeeds (linkFunction source key) state := by
  obtain ⟨record, fields, found, tag, payload, arguments, blocks⟩ :=
    well_formed.well_tagged.functions key member
  have read : functionFields source key = .ok fields :=
    (functionFields_eq_ok_iff indexes).mpr ⟨record, found, payload⟩
  have inner_reachable : ∀ inner ∈ fields.arguments ++ fields.blocks, table.Reachable inner :=
    fun inner => (Table.Reachable.function member).in_function found tag payload
  have known : key ∈ order := listed (by simp [Table.listedKeys, member])
  -- Everything in the function was numbered when it was registered.
  have body_known : fields.arguments ++ fields.blocks.flatMap table.blockKeys ⊆ order := by
    rw [← Table.bodyKeys_eq found payload]
    refine List.Subset.trans (fun inner inside => ?_) listed
    exact List.mem_append_right _ (List.mem_flatMap.mpr ⟨key, member, inside⟩)
  obtain ⟨known_arguments, known_inside⟩ := List.append_subset.mp body_known
  have block_known : ∀ block ∈ fields.blocks, table.blockKeys block ⊆ order :=
    fun block inside inner deep => known_inside (List.mem_flatMap.mpr ⟨block, inside, deep⟩)
  have known_blocks : fields.blocks ⊆ order :=
    fun block inside => block_known block inside (by simp [Table.blockKeys_eq_cons])
  refine succeeds_bind (succeeds_lift read) (ensures_lift fun _ same => ?_)
  obtain rfl := Except.ok.inj (read.symm.trans same)
  apply forM_bind_succeeds progress
  · intro inner inside later between _ progress
    exact linkArgument_ensures indexes progress (arguments inner inside)
  · intro inner inside later between grows progress
    exact linkArgument_succeeds indexes well_formed progress
      (inner_reachable inner (List.mem_append_left _ inside))
        (grows.subset (known_arguments inside))
      (arguments inner inside)
  intro later between grows progress
  -- Branches are checked against the numbers of the blocks, which are looked up before any block is
  -- linked.
  have blocks_later : fields.blocks ⊆ later := List.Subset.trans known_blocks grows.subset
  refine succeeds_bind (mapM_idOf_succeeds progress blocks_later) ?_
  refine (mapM_idOf_ensures progress fields.blocks).mono ?_
  -- Further constants are numbered along with the instructions, and the numbers of the blocks stay
  -- what they are.
  rintro _ between ⟨rfl, _, rfl⟩
  apply forM_bind_succeeds progress
  · intro inner inside latest between grows_later progress
    rw [← grows_later.map_idxOf blocks_later]
    exact linkBlock_ensures indexes (inner_reachable inner (List.mem_append_right _ inside))
      progress (List.Subset.trans blocks_later grows_later.subset) (blocks inner inside)
  · intro inner inside latest between grows_later progress
    have order_kept : order ⊆ latest := List.Subset.trans grows.subset grows_later.subset
    rw [← grows_later.map_idxOf blocks_later]
    exact linkBlock_succeeds indexes well_formed (List.Subset.trans listed order_kept) progress
      (List.Subset.trans known_blocks order_kept)
        (inner_reachable inner (List.mem_append_right _ inside))
      (List.Subset.trans (block_known inner inside) order_kept) (blocks inner inside)
      (well_formed.branches_inside key member record fields found payload inner inside)
  intro latest between grows_later progress
  have order_kept : order ⊆ latest := List.Subset.trans grows.subset grows_later.subset
  refine succeeds_bind (mapM_idOf_succeeds progress (List.Subset.trans known_arguments order_kept))
    ?_
  refine (mapM_idOf_ensures progress fields.arguments).mono ?_
  rintro _ _ ⟨rfl, _, _⟩
  exact define_idOf_succeeds progress (order_kept known) _

private theorem linkContents_succeeds : Succeeds (linkContents source table) state := by
  have tagged := well_formed.well_tagged
  -- The listed keys keep their numbers from list to list.
  apply forM_bind_succeeds progress
  · intro key member later between _ progress
    exact linkGlobal_ensures indexes (.global member) progress (tagged.globals key member)
  · intro key member later between grows progress
    exact linkGlobal_succeeds indexes well_formed (List.Subset.trans listed grows.subset)
      progress member
  intro order state grows progress
  replace listed := List.Subset.trans listed grows.subset
  apply forM_bind_succeeds progress
  · intro key member later between _ progress
    exact linkAlias_ensures indexes (.globalAlias member) progress (tagged.aliases key member)
  · intro key member later between grows progress
    exact linkAlias_succeeds indexes well_formed (List.Subset.trans listed grows.subset)
      progress member
  intro order state grows progress
  replace listed := List.Subset.trans listed grows.subset
  apply forM_extends_succeeds progress
  · intro key member later between _ progress
    exact linkFunction_ensures indexes (.function member) progress (tagged.functions key member)
  · intro key member later between grows progress
    exact linkFunction_succeeds indexes well_formed (List.Subset.trans listed grows.subset)
      progress member

end

/-! ### The module -/

/-- Every listed key got its content, and every constant got it along with its number. -/
theorem values_succeeds {after : State} (progress : Progress table [] table.listedKeys state)
    (extended : Extends table [] table.listedKeys state
      (fun later after => ∀ key ∈ table.listedKeys, HasContent later after key) after) :
    ∃ values, after.values = .ok values := by
  obtain ⟨later, grows, fills, progress_after, filled⟩ := extended
  apply mapM_succeeds
  rintro ⟨header, id⟩ member
  obtain ⟨_, bound, _⟩ := List.mem_zipIdx member
  have known : id ∈ after.contents := by
    rcases Nat.lt_or_ge id table.listedKeys.length with early | late
    · -- The number under which the key has its content is this one, since it has only one.
      obtain ⟨other, numbered, known⟩ := filled table.listedKeys[id] (List.getElem_mem early)
      have here := grows.getElem?_eq_some (List.getElem?_eq_getElem early)
      rwa [← progress_after.idxOf_eq here, progress_after.idxOf_eq numbered]
    · exact fills.filled id (progress.headed.length_eq ▸ late) (by omega)
  obtain ⟨content, found⟩ :=
    Option.isSome_iff_exists.mp (Std.ExtTreeMap.mem_iff_isSome_getElem?.mp known)
  exact ⟨{ id, header, content }, by simp only [found]⟩

private theorem linkParts_succeeds (indexes : source.Indexes table) (well_formed : table.WellFormed)
    (types : List Ty) : Succeeds (linkParts source types table) {} := by
  refine succeeds_bind (registerAll_succeeds indexes well_formed)
    ((registerAll_ensures indexes).mono ?_)
  rintro _ registered ⟨progress, tagged⟩
  refine succeeds_bind (linkContents_succeeds indexes well_formed (List.Subset.refl _) progress) ?_
  refine (linkContents_ensures indexes tagged progress).mono fun _ filled extended => ?_
  obtain ⟨values, collected⟩ := values_succeeds progress (extended.mono fun _ _ both => both.1)
  obtain ⟨later, grows, _, progress, _⟩ := extended
  -- The keys of the three lists have had their numbers since they were registered.
  have known : table.globals ++ table.aliases ++ table.functions ⊆ later :=
    List.Subset.trans (List.subset_append_left _ _) grows.subset
  obtain ⟨both_known, functions_known⟩ := List.append_subset.mp known
  obtain ⟨globals_known, aliases_known⟩ := List.append_subset.mp both_known
  refine succeeds_bind succeeds_get (ensures_get ?_)
  refine succeeds_bind (succeeds_lift collected) (ensures_lift fun _ _ => ?_)
  refine succeeds_bind (mapM_idOf_succeeds progress globals_known)
    ((mapM_idOf_ensures progress table.globals).mono ?_)
  rintro _ _ ⟨rfl, _⟩
  refine succeeds_bind (mapM_idOf_succeeds progress aliases_known)
    ((mapM_idOf_ensures progress table.aliases).mono ?_)
  rintro _ _ ⟨rfl, _⟩
  exact succeeds_bind (mapM_idOf_succeeds progress functions_known) fun _ _ _ => succeeds_pure _

end Link

open Link in
private theorem Table.WellFormed.exists_link {table : Table} (well_formed : table.WellFormed) :
    ∃ module, table.link = .ok module := by
  obtain ⟨records, recorded⟩ := recordsByKey_succeeds_iff.mpr well_formed.distinct_values
  obtain ⟨⟨ids, types⟩, typed⟩ :=
    linkTypes_succeeds_iff.mpr ⟨well_formed.distinct_types, well_formed.linkable_types⟩
  obtain ⟨module, after, finished⟩ :=
    linkParts_succeeds (indexes_of_link recorded typed) well_formed types
  refine ⟨module, link_eq_ok_iff.mpr ⟨well_formed.readable, records, ids, types,
    recorded, typed, ?_⟩⟩
  rw [StateT.run'_eq, finished]
  rfl

/-- A table can be linked if and only if it is well-formed. -/
theorem Table.link_succeeds_iff (table : Table) :
    (∃ module, table.link = .ok module) ↔ table.WellFormed := by
  constructor
  · rintro ⟨module, linked⟩
    exact wellFormed_of_link linked
  · exact fun well_formed => well_formed.exists_link

end FlowIR
