import FlowIR.Proofs.Link.Ownership

/-!
# The index of owners

A linked module keeps an index from parts to their owners, beside the lists of arguments, blocks and
instructions in which the parts stand. The index was written while the lists were numbered, and the
lists were put together again later. Both say the same: a value has an owner exactly if it stands in
one of the lists of that owner. No value stands in two of these lists or twice in one of them, and
all arguments, blocks and instructions stand in one.
-/
namespace FlowIR

namespace Link

open Table (Key)

variable {source : Source} {table : Table} {state : State} {base : Nat}

/-! ### Numbers with an owner -/

/-- Only values that were numbered after the first ones have owners. -/
structure OwnedFrom (base : Nat) (state : State) : Prop where
  base_le : base ≤ state.headers.length
  in_range : ∀ id : Nat, id ∈ state.owners → base ≤ id ∧ id < state.headers.length

private theorem idOf_state (key : Key) : Ensures (idOf key) state fun _ after => after = state := by
  refine ensures_bind (ensures_get ?_)
  split
  · exact ensures_pure rfl
  · exact ensures_throw _

private theorem register_headers (source : Source) (expected : Tag → Bool) (key : Key) :
    Ensures (register source expected key) state fun _ after =>
      after.headers.length = state.headers.length + 1 := by
  refine ensures_bind (ensures_lift fun record _ => ?_)
  split
  · exact ensures_throw _
  · refine ensures_bind (ensures_get ?_)
    split
    · exact ensures_throw _
    · exact ensures_bind (ensures_lift fun ty _ => ensures_modifyGet (by simp))

/-- The value that gets an owner is the one that was numbered just now. -/
theorem OwnedFrom.registerPart (owned : OwnedFrom base state) (source : Source)
    (expected : Tag → Bool) (owner : ValueId) (key : Key) :
    Ensures (registerPart source expected owner key) state fun _ after => OwnedFrom base after := by
  refine ensures_bind
    (((register_owners source expected key).and (register_headers source expected key)).mono ?_)
  rintro _ between ⟨⟨rfl, untouched⟩, longer⟩
  refine ensures_bind ((setOwner_eq _ owner).mono ?_)
  rintro _ after rfl
  have base_le := owned.base_le
  refine ensures_pure ⟨by simp only; omega, fun id has_owner => ?_⟩
  simp only [untouched, Std.ExtTreeMap.mem_insert, Nat.compare_eq_eq] at has_owner ⊢
  rcases has_owner with rfl | old
  · omega
  · have old_range := owned.in_range id old
    omega

private theorem OwnedFrom.registerBlock (owned : OwnedFrom base state) (source : Source)
    (function : ValueId) (key : Key) :
    Ensures (registerBlock source function key) state fun _ after => OwnedFrom base after := by
  refine ensures_bind
    ((owned.registerPart source _ function key).mono fun block between owned => ?_)
  refine ensures_bind (ensures_lift fun fields _ => ?_)
  refine ensures_forM (fun _ => OwnedFrom base) fields.instructions
    (fun _ inner _ _ owned => ?_) owned
  exact ensures_discard (owned.registerPart source _ block inner)

private theorem OwnedFrom.registerBody (owned : OwnedFrom base state) (source : Source)
    (key : Key) :
    Ensures (registerBody source key) state fun _ after => OwnedFrom base after := by
  refine ensures_bind ((idOf_state key).mono ?_)
  rintro function _ rfl
  refine ensures_bind (ensures_lift fun fields _ => ?_)
  refine ensures_bind
    ((ensures_forM (fun _ => OwnedFrom base) fields.arguments (fun _ inner _ _ owned => ?_)
    owned).mono fun _ between owned => ?_)
  · exact ensures_discard (owned.registerPart source _ function inner)
  · exact ensures_forM (fun _ => OwnedFrom base) fields.blocks
      (fun _ inner _ _ owned => owned.registerBlock source function inner) owned

/-- The lists of the module itself give no owners to anything. -/
theorem forM_register_owners (source : Source) (expected : Tag → Bool) (keys : List Key) :
    Ensures (keys.forM fun key => discard (register source expected key)) state fun _ after =>
      after.owners = state.owners := by
  refine ensures_forM (fun _ (after : State) => after.owners = state.owners) keys
    (fun _ key _ before same => ?_) rfl
  exact ensures_discard
    ((register_owners source expected key).mono fun _ _ step => step.2.trans same)

private theorem registerAll_ownedFrom (indexes : source.Indexes table) :
    Ensures (registerAll source table) {} fun _ after =>
      OwnedFrom (table.globals ++ table.aliases ++ table.functions).length after := by
  refine ensures_bind
    (((forM_register_ensures indexes (progress_initial table) fun _ => .global).and
    (forM_register_owners source _ table.globals)).mono ?_)
  rintro _ _ ⟨⟨progress, _⟩, no_owners⟩
  refine ensures_bind (((forM_register_ensures indexes progress fun _ => .globalAlias).and
    (forM_register_owners source _ table.aliases)).mono ?_)
  rintro _ _ ⟨⟨progress, _⟩, same⟩
  rw [no_owners] at same
  refine ensures_bind (((forM_register_ensures indexes progress fun _ => .function).and
    (forM_register_owners source _ table.functions)).mono ?_)
  rintro _ state ⟨⟨progress, _⟩, also_same⟩
  rw [same] at also_same
  -- There are no owners yet, and the bodies are numbered behind the three lists.
  have counted := progress.headed.length_eq
  refine ensures_forM (fun _ => OwnedFrom _) table.functions
    (fun _ key _ _ owned => owned.registerBody source key) ?_
  refine ⟨by simpa using counted.le, fun id has_owner => ?_⟩
  rw [also_same] at has_owner
  exact absurd has_owner (by simp)

private theorem linkParts_ownedFrom (indexes : source.Indexes table) (types : List Ty) :
    Ensures (linkParts source types table) {} fun module _ => ∀ id : Nat, id ∈ module.owners →
      (table.globals ++ table.aliases ++ table.functions).length ≤ id ∧
        id < table.listedKeys.length := by
  refine ensures_bind (((registerAll_ensures indexes).and (registerAll_ownedFrom indexes)).mono ?_)
  rintro _ registered ⟨⟨progress, tagged⟩, owned⟩
  have counted := progress.headed.length_eq
  refine ensures_bind ((linkContents_ensures indexes tagged progress).mono ?_)
  rintro _ _ ⟨_, _, fills, _⟩
  refine ensures_bind (ensures_get (ensures_bind (ensures_lift fun values _ => ?_)))
  -- The owners were read before the three lists are looked up.
  refine ensures_bind fun _ _ _ =>
    ensures_bind fun _ _ _ => ensures_bind fun _ _ _ => ensures_pure ?_
  intro id has_owner
  rw [counted]
  exact owned.in_range id (fills.owners ▸ has_owner)

end Link

/-! ### Parts and their lists -/

/-- Arguments, blocks and instructions are parts of something else. -/
def Content.isPart : Content → Bool
  | argument _ | basicBlock _ | instruction _ => true
  | _ => false

/-- The lists of parts that a function or a block has. -/
def Content.partLists : Content → List (List ValueId)
  | function info => [info.arguments, info.blocks]
  | basicBlock info => [info.instructions]
  | _ => []

def Tag.isPart : Tag → Bool
  | argument | basicBlock | instruction _ => true
  | _ => false

private theorem Tag.Agrees.isPart_eq {tag : Tag} {content : Content} (agrees : tag.Agrees content) :
    tag.isPart = content.isPart := by
  cases tag <;> cases content <;> first | rfl | exact agrees.elim

namespace Module

/-- All lists of parts in the module. -/
def partLists (module : Module) : List (List ValueId) :=
  module.values.flatMap fun value => value.content.partLists

/-- The second value stands in a list of the first one. -/
def Holds (module : Module) (outer inner : ValueId) : Prop :=
  ∃ content, module.content? outer = some content ∧ inner ∈ content.partLists.flatten

variable {module : Module} {id inner outer : ValueId}

private theorem holds_iff : module.Holds outer inner ↔
    (∃ info, module.content? outer = some (.function info) ∧
      (inner ∈ info.arguments ∨ inner ∈ info.blocks)) ∨
      ∃ body, module.content? outer = some (.basicBlock body) ∧ inner ∈ body.instructions := by
  constructor
  · intro ⟨content, found, listed⟩
    cases content with
    | function info => exact Or.inl ⟨info, found, by simpa [Content.partLists] using listed⟩
    | basicBlock body => exact Or.inr ⟨body, found, by simpa [Content.partLists] using listed⟩
    | _ => simp [Content.partLists] at listed
  · rintro (⟨info, found, listed⟩ | ⟨body, found, listed⟩)
    · exact ⟨_, found, by simpa [Content.partLists] using listed⟩
    · exact ⟨_, found, by simpa [Content.partLists] using listed⟩

private theorem holds_argument {info : FunctionInfo}
    (found : module.content? outer = some (.function info))
    (listed : inner ∈ info.arguments) : module.Holds outer inner :=
  holds_iff.mpr (Or.inl ⟨info, found, Or.inl listed⟩)

private theorem holds_block {info : FunctionInfo}
    (found : module.content? outer = some (.function info))
    (listed : inner ∈ info.blocks) : module.Holds outer inner :=
  holds_iff.mpr (Or.inl ⟨info, found, Or.inr listed⟩)

private theorem holds_instruction {body : BlockInfo}
    (found : module.content? outer = some (.basicBlock body))
    (listed : inner ∈ body.instructions) : module.Holds outer inner :=
  holds_iff.mpr (Or.inr ⟨body, found, listed⟩)

private theorem mem_partLists_iff :
    inner ∈ module.partLists.flatten ↔ ∃ outer, module.Holds outer inner := by
  simp only [partLists, List.mem_flatten, List.mem_flatMap]
  constructor
  · rintro ⟨parts, ⟨value, member, listed⟩, inside⟩
    obtain ⟨outer, found⟩ := List.getElem?_of_mem member
    exact ⟨outer, value.content, content?_eq_some_of_value? found,
      List.mem_flatten.mpr ⟨parts, listed, inside⟩⟩
  · rintro ⟨outer, content, found, inside⟩
    obtain ⟨value, valued, rfl⟩ := Option.map_eq_some_iff.mp found
    obtain ⟨parts, listed, inside⟩ := List.mem_flatten.mp inside
    exact ⟨parts, ⟨value, List.mem_of_getElem? valued, listed⟩, inside⟩

end Module

namespace Table

variable {table : Table} {number : Key → ValueId} {module : Module} {key : Key}

private theorem map_fst_blockOwners (table : Table) (function block : Key) :
    (table.blockOwners function block).map Prod.fst = table.blockKeys block := by
  simp [blockOwners, blockKeys_eq_cons, Function.comp_def]

private theorem map_fst_bodyOwners (table : Table) (function : Key) :
    (table.bodyOwners function).map Prod.fst = table.bodyKeys function := by
  rw [bodyOwners, bodyKeys]
  cases (table.record? function).map ValueRecord.payload with
  | none => rfl
  | some payload =>
    cases payload <;> simp [List.map_flatMap, map_fst_blockOwners, Function.comp_def]

private theorem exists_pair (inside : key ∈ table.functions.flatMap table.bodyKeys) :
    ∃ owner, (key, owner) ∈ table.functions.flatMap table.bodyOwners := by
  obtain ⟨function, listed, inner⟩ := List.mem_flatMap.mp inside
  rw [← map_fst_bodyOwners] at inner
  obtain ⟨⟨_, owner⟩, member, rfl⟩ := List.mem_map.mp inner
  exact ⟨owner, List.mem_flatMap.mpr ⟨function, listed, member⟩⟩

/-- Parts stand in the bodies of functions, not in the lists of the module itself. -/
theorem WellTagged.mem_bodies {record : ValueRecord} (tagged : table.WellTagged)
    (listed : key ∈ table.listedKeys) (found : table.record? key = some record)
    (part : record.tag.isPart = true) :
    key ∈ table.functions.flatMap table.bodyKeys := by
  rw [listedKeys, List.mem_append, List.mem_append, List.mem_append] at listed
  rcases listed with ((global | other_name) | function) | inside
  · have tag : record.tag = .globalVariable := by
      simpa using (tagged.globals key global).of_record found
    simp [tag, Tag.isPart] at part
  · have tag : record.tag = .globalAlias := by
      simpa using (tagged.aliases key other_name).of_record found
    simp [tag, Tag.isPart] at part
  · obtain ⟨_, _, found_too, tag, _⟩ := tagged.functions key function
    obtain rfl := Option.some.inj (found.symm.trans found_too)
    simp [tag, Tag.isPart] at part
  · exact inside

namespace IsLinked

variable (linked : table.IsLinked number module) (well_formed : table.WellFormed)
include linked

private theorem exists_function_content {record : ValueRecord} {fields : FunctionFields}
    (listed : key ∈ table.functions) (found : table.record? key = some record)
    (tag : record.tag = .function) (payload : record.payload = .function fields) :
    ∃ info, module.content? (number key) = some (.function info) ∧
      info.arguments = fields.arguments.map number ∧
      info.blocks = fields.blocks.map number := by
  obtain ⟨content, decoded, content_found⟩ := linked.content?_eq (.function listed) found
  simp only [ValueRecord.decode, tag, payload, Except.ok.injEq] at decoded
  subst decoded
  exact ⟨_, content_found, rfl, rfl⟩

/-- The numbers behind those of the three lists are those of the bodies of functions. -/
theorem exists_key_in_bodies {id : Nat}
    (late : (table.globals ++ table.aliases ++ table.functions).length ≤ id)
    (bound : id < table.listedKeys.length) :
    ∃ key, number key = id ∧ key ∈ table.functions.flatMap table.bodyKeys := by
  refine ⟨table.listedKeys[id], ?_, ?_⟩
  · have here := congrArg (·[id]?) linked.listed_first
    simpa [bound] using here
  · simp only [listedKeys, List.getElem_append_right late]
    exact List.getElem_mem _

include well_formed

/-- A function of the module comes from a record with its lists. -/
theorem exists_functionFields {id : ValueId} {info : FunctionInfo}
    (found : module.content? id = some (.function info)) :
    ∃ key record fields, key ∈ table.functions ∧ number key = id ∧ table.record? key = some record ∧
      record.payload = .function fields ∧ info.arguments = fields.arguments.map number ∧
      info.blocks = fields.blocks.map number := by
  have function_found : module.function? id = some info := by rw [Module.function?, found]
  have listed := linked.mem_functions well_formed function_found
  rw [linked.functions] at listed
  obtain ⟨key, key_listed, rfl⟩ := List.mem_map.mp listed
  obtain ⟨record, fields, recorded, tag, payload, _⟩ :=
    well_formed.well_tagged.functions key key_listed
  obtain ⟨other, other_found, arguments, blocks⟩ :=
    linked.exists_function_content key_listed recorded tag payload
  obtain rfl := Content.function.inj (Option.some.inj (found.symm.trans other_found))
  exact ⟨key, record, fields, key_listed, rfl, recorded, payload, arguments, blocks⟩

private theorem holds_of_pair {inner outer : Key}
    (member : (inner, outer) ∈ table.functions.flatMap table.bodyOwners) :
    module.Holds (number outer) (number inner) := by
  obtain ⟨function, listed, inside⟩ := List.mem_flatMap.mp member
  obtain ⟨record, fields, found, tag, payload, _⟩ :=
    well_formed.well_tagged.functions function listed
  obtain ⟨info, content, arguments, blocks⟩ :=
    linked.exists_function_content listed found tag payload
  rw [bodyOwners_eq found payload, List.mem_append, List.mem_flatMap] at inside
  -- The part is an argument or a block of the function, or an instruction of one of its blocks.
  rcases inside with argument | ⟨block, block_listed, inside⟩
  · obtain ⟨_, argument_listed, same⟩ := List.mem_map.mp argument
    obtain ⟨rfl, rfl⟩ := Prod.mk.inj same
    exact Module.holds_argument content (arguments ▸ List.mem_map_of_mem argument_listed)
  · rcases List.mem_cons.mp inside with same | instruction
    · obtain ⟨rfl, rfl⟩ := Prod.mk.inj same
      exact Module.holds_block content (blocks ▸ List.mem_map_of_mem block_listed)
    · obtain ⟨_, instruction_listed, same⟩ := List.mem_map.mp instruction
      obtain ⟨rfl, rfl⟩ := Prod.mk.inj same
      have has_block : table.HasBlock function block :=
        ⟨listed, functionBlocks_eq found payload ▸ block_listed⟩
      exact Module.holds_instruction
        (Module.content?_of_block? (linked.block?_eq well_formed has_block))
        (List.mem_map_of_mem instruction_listed)

private theorem exists_pair_of_holds {inner outer : ValueId} (holds : module.Holds outer inner) :
    ∃ pair ∈ table.functions.flatMap table.bodyOwners, number pair.1 = inner ∧
      number pair.2 = outer := by
  rcases Module.holds_iff.mp holds with ⟨info, found, listed⟩ | ⟨body, found, listed⟩
  · obtain ⟨key, record, fields, key_listed, rfl, recorded, payload, arguments, blocks⟩ :=
      linked.exists_functionFields well_formed found
    rw [arguments, blocks, ← List.mem_append, ← List.map_append] at listed
    obtain ⟨part, part_listed, rfl⟩ := List.mem_map.mp listed
    refine ⟨(part, key), List.mem_flatMap.mpr ⟨key, key_listed, ?_⟩, rfl, rfl⟩
    rw [bodyOwners_eq recorded payload]
    rcases List.mem_append.mp part_listed with argument | block
    · exact List.mem_append_left _ (List.mem_map_of_mem argument)
    · exact List.mem_append_right _ (List.mem_flatMap.mpr ⟨part, block, List.mem_cons_self⟩)
  · obtain ⟨function, block, has_block, rfl, instructions⟩ :=
      linked.exists_hasBlock well_formed (by rw [Module.block?, found])
    rw [instructions] at listed
    obtain ⟨part, part_listed, rfl⟩ := List.mem_map.mp listed
    refine ⟨(part, block), has_block.owners_subset well_formed (List.mem_cons_of_mem _ ?_), rfl,
      rfl⟩
    exact List.mem_map_of_mem part_listed

/-- Every part stands in a list of something. -/
theorem exists_holds_of_isPart {id : ValueId} {content : Content}
    (found : module.content? id = some content) (part : content.isPart = true) :
    ∃ outer, module.Holds outer id := by
  obtain ⟨value, valued, rfl⟩ := Option.map_eq_some_iff.mp found
  obtain ⟨key, record, reachable, rfl, recorded, _, _, decoded⟩ := linked.exists_key valued
  rw [← (ValueRecord.agrees_of_decode decoded).isPart_eq] at part
  -- What can be reached is listed, or it is a constant.
  obtain ⟨_, _, recorded_too, _, _, place⟩ := well_formed.usable key reachable
  obtain rfl := Option.some.inj (recorded.symm.trans recorded_too)
  have listed : key ∈ table.listedKeys := place.resolve_right fun constant => by
    cases tag : record.tag <;> simp [tag, Tag.isPart, Tag.isConstant] at part constant
  obtain ⟨owner, member⟩ := exists_pair (well_formed.well_tagged.mem_bodies listed recorded part)
  exact ⟨number owner, linked.holds_of_pair well_formed member⟩

private theorem arguments_of_function {id : ValueId} {info : FunctionInfo}
    (found : module.content? id = some (.function info)) : info.arguments.Nodup ∧
      ∀ argument ∈ info.arguments, ∃ attributes,
        module.content? argument = some (.argument attributes) := by
  obtain ⟨key, record, fields, listed, rfl, recorded, payload, arguments, _⟩ :=
    linked.exists_functionFields well_formed found
  obtain ⟨_, _, recorded_too, tag, payload_too, tagged, _⟩ :=
    well_formed.well_tagged.functions key listed
  obtain rfl := Option.some.inj (recorded.symm.trans recorded_too)
  obtain rfl := Payload.function.inj (payload.symm.trans payload_too)
  have reachable : ∀ inner ∈ fields.arguments, table.Reachable inner :=
    fun inner member =>
      (Reachable.function listed).in_function recorded tag payload (List.mem_append_left _ member)
  rw [arguments]
  constructor
  · have distinct := well_formed.distinct_listed
    rw [listedKeys, List.nodup_append] at distinct
    -- The arguments are among the keys of the body, no two of which are the same.
    have body := (List.nodup_flatMap.mp distinct.2.1).1 key listed
    rw [bodyKeys_eq recorded payload, List.nodup_append] at body
    exact linked.nodup_map reachable body.1
  · intro id member
    obtain ⟨inner, inner_listed, rfl⟩ := List.mem_map.mp member
    obtain ⟨inner_record, inner_recorded, inner_tag⟩ := tagged inner inner_listed
    obtain ⟨content, decoded, content_found⟩ :=
      linked.content?_eq (reachable inner inner_listed) inner_recorded
    have agrees := ValueRecord.agrees_of_decode decoded
    rw [decide_eq_true_eq.mp inner_tag] at agrees
    cases content with
    | argument attributes => exact ⟨attributes, content_found⟩
    | _ => exact agrees.elim

end IsLinked

open Link in
/-- The index and the lists agree. -/
theorem owner_iff_holds (linked : table.link = .ok module) {inner outer : ValueId} :
    module.owners[inner]? = some outer ↔ module.Holds outer inner := by
  obtain ⟨number, is_linked, owners⟩ := exists_owners_of_link linked
  have well_formed := wellFormed_of_link linked
  constructor
  · intro noted
    -- A number with an owner lies in the range of the bodies, so it is the number of a part, whose
    -- owner is known.
    obtain ⟨_, records, ids, types, recorded, typed, finished⟩ := link_eq_ok_iff.mp linked
    obtain ⟨_, in_range⟩ :=
      (linkParts_ownedFrom (indexes_of_link recorded typed) types).exists_after finished
    have has_owner : inner ∈ module.owners := by
      rw [Std.ExtTreeMap.mem_iff_isSome_getElem?, noted]
      rfl
    obtain ⟨late, bound⟩ := in_range inner has_owner
    obtain ⟨key, rfl, inside⟩ := is_linked.exists_key_in_bodies late bound
    obtain ⟨owner, member⟩ := exists_pair inside
    obtain rfl : number owner = outer := Option.some.inj ((owners _ member).symm.trans noted)
    exact is_linked.holds_of_pair well_formed member
  · intro holds
    obtain ⟨pair, member, rfl, rfl⟩ := is_linked.exists_pair_of_holds well_formed holds
    exact owners pair member

end Table

/-! ### Asking for owners -/

namespace Module

variable {module : Module} {id inner outer : ValueId}

/-- What the lists of parts hold, and that the index of owners says the same. -/
structure Composed (module : Module) : Prop where
  owner_iff : ∀ {inner outer : ValueId}, module.owners[inner]? = some outer ↔
    module.Holds outer inner
  arguments : ∀ {id info}, module.content? id = some (.function info) → ∀ argument ∈ info.arguments,
    ∃ attributes, module.content? argument = some (.argument attributes)
  blocks : ∀ {id info}, module.content? id = some (.function info) → ∀ block ∈ info.blocks,
    ∃ body, module.content? block = some (.basicBlock body)
  instructions : ∀ {id body}, module.content? id = some (.basicBlock body) →
    ∀ inner ∈ body.instructions,
    ∃ instruction, module.content? inner = some (.instruction instruction)
  distinct : ∀ {id content}, module.content? id = some content → content.partLists.flatten.Nodup
  held : ∀ {id content}, module.content? id = some content → content.isPart = true →
    ∃ outer, module.Holds outer id

private theorem blockOf?_of_instruction {instruction : Instruction}
    (found : module.content? id = some (.instruction instruction)) :
    module.blockOf? id = module.owners[id]? := by
  simp [blockOf?, instruction?, found]

private theorem functionOf?_of_function {info : FunctionInfo}
    (owner : module.owners[id]? = some outer)
    (found : module.content? outer = some (.function info)) :
    module.functionOf? id = some outer := by
  simp [functionOf?, owner, function?, found]

private theorem functionOf?_of_block {body : BlockInfo} (owner : module.owners[id]? = some outer)
    (found : module.content? outer = some (.basicBlock body)) :
    module.functionOf? id = module.owners[outer]? := by
  simp [functionOf?, owner, function?, found]

namespace Composed

variable (composed : module.Composed)
include composed

/-- Only parts stand in lists. -/
theorem isPart_of_holds {content : Content} (holds : module.Holds outer inner)
    (found : module.content? inner = some content) : content.isPart = true := by
  have known : ∃ part, module.content? inner = some part ∧ part.isPart = true := by
    rcases holds_iff.mp holds
      with ⟨info, outer_found, argument | block⟩ | ⟨body, outer_found, instruction⟩
    · exact (composed.arguments outer_found inner argument).imp' Content.argument fun _ part =>
        ⟨part, rfl⟩
    · exact (composed.blocks outer_found inner block).imp' Content.basicBlock fun _ part =>
        ⟨part, rfl⟩
    · exact (composed.instructions outer_found inner instruction).imp' Content.instruction
        fun _ part => ⟨part, rfl⟩
  obtain ⟨part, part_found, is_part⟩ := known
  rwa [Option.some.inj (found.symm.trans part_found)]

/-- An instruction is neither an argument nor a block, so a block owns it. -/
theorem exists_block_of_owner {instruction : Instruction}
    (found : module.content? id = some (.instruction instruction))
    (owner : module.owners[id]? = some outer) :
    ∃ body, module.content? outer = some (.basicBlock body) ∧ id ∈ body.instructions := by
  rcases holds_iff.mp (composed.owner_iff.mp owner)
    with ⟨info, outer_found, argument | block⟩ | inside
  · obtain ⟨_, other⟩ := composed.arguments outer_found id argument
    simp [found] at other
  · obtain ⟨_, other⟩ := composed.blocks outer_found id block
    simp [found] at other
  · exact inside

private theorem exists_function_of_owner {body : BlockInfo}
    (found : module.content? id = some (.basicBlock body))
    (owner : module.owners[id]? = some outer) :
    ∃ info, module.content? outer = some (.function info) ∧ id ∈ info.blocks := by
  rcases holds_iff.mp (composed.owner_iff.mp owner) with
    ⟨info, outer_found, argument | block⟩ | ⟨_, outer_found, instruction⟩
  · obtain ⟨_, other⟩ := composed.arguments outer_found id argument
    simp [found] at other
  · exact ⟨info, outer_found, block⟩
  · obtain ⟨_, other⟩ := composed.instructions outer_found id instruction
    simp [found] at other

/-- Two values do not hold the same part, since the part has one owner in the index. -/
theorem nodup_partLists : module.partLists.flatten.Nodup := by
  have flat : module.partLists.flatten = module.values.flatMap fun value =>
      value.content.partLists.flatten := by
    rw [partLists, ← List.flatMap_id, List.flatMap_assoc]
    simp only [List.flatMap_id]
  rw [flat, List.nodup_flatMap]
  constructor
  · intro value member
    obtain ⟨id, found⟩ := List.getElem?_of_mem member
    exact composed.distinct (content?_eq_some_of_value? found)
  · rw [List.pairwise_iff_getElem]
    intro left right left_bound right_bound less part in_left in_right
    have left_found : module.value? left = some module.values[left] :=
      List.getElem?_eq_getElem left_bound
    have right_found : module.value? right = some module.values[right] :=
      List.getElem?_eq_getElem right_bound
    have left_owner := composed.owner_iff.mpr ⟨_, content?_eq_some_of_value? left_found, in_left⟩
    have right_owner := composed.owner_iff.mpr ⟨_, content?_eq_some_of_value? right_found, in_right⟩
    exact Nat.ne_of_lt less (Option.some.inj (left_owner.symm.trans right_owner))

end Composed

/-- Asking the index for the owner of a value gives the function or the block in whose list it
stands, and every part stands once in all lists together. -/
structure OwnersFound (module : Module) : Prop where
  arguments : ∀ function info, module.function? function = some info → ∀ argument ∈ info.arguments,
    (∃ attributes, module.content? argument = some (.argument attributes)) ∧
      module.functionOf? argument = some function ∧ module.blockOf? argument = none
  blocks : ∀ function info, module.function? function = some info → ∀ block ∈ info.blocks,
    module.functionOf? block = some function ∧ module.blockOf? block = none ∧
      ∃ body, module.block? block = some body ∧ ∀ id ∈ body.instructions,
        (∃ instruction, module.instruction? id = some instruction) ∧
          module.blockOf? id = some block ∧
          module.functionOf? id = some function
  /-- Nothing else has a block. -/
  mem_of_blockOf? : ∀ id block, module.blockOf? id = some block →
    ∃ body, module.block? block = some body ∧ id ∈ body.instructions
  /-- Nothing else has a function. -/
  mem_of_functionOf? : ∀ id function, module.functionOf? id = some function →
    ∃ info, module.function? function = some info ∧ (id ∈ info.arguments ∨ id ∈ info.blocks ∨
      ∃ block ∈ info.blocks, ∃ body, module.block? block = some body ∧ id ∈ body.instructions)
  parts_once : ∀ id content, module.content? id = some content → content.isPart = true →
    module.partLists.flatten.count id = 1
  /-- Globals, aliases, functions, constants and inline assembly. -/
  others_unowned : ∀ id content, module.content? id = some content → content.isPart = false →
    module.owners[id]? = none ∧ module.blockOf? id = none ∧ module.functionOf? id = none ∧
      module.partLists.flatten.count id = 0

private theorem Composed.ownersFound (composed : module.Composed) : module.OwnersFound where
  arguments := by
    intro function info found argument listed
    have function_found := content?_of_function? found
    obtain ⟨attributes, argument_found⟩ := composed.arguments function_found argument listed
    have owner := composed.owner_iff.mpr (holds_argument function_found listed)
    exact ⟨⟨attributes, argument_found⟩, functionOf?_of_function owner function_found,
      by simp [blockOf?, instruction?, argument_found]⟩
  blocks := by
    intro function info found block listed
    have function_found := content?_of_function? found
    obtain ⟨body, block_found⟩ := composed.blocks function_found block listed
    have owner := composed.owner_iff.mpr (holds_block function_found listed)
    refine ⟨functionOf?_of_function owner function_found,
      by simp [blockOf?, instruction?, block_found], body,
      by simp [block?, block_found], fun id inside => ?_⟩
    obtain ⟨instruction, instruction_found⟩ := composed.instructions block_found id inside
    have inner_owner := composed.owner_iff.mpr (holds_instruction block_found inside)
    refine ⟨⟨instruction, by simp [instruction?, instruction_found]⟩, ?_, ?_⟩
    · rw [blockOf?_of_instruction instruction_found, inner_owner]
    · rw [functionOf?_of_block inner_owner block_found, owner]
  mem_of_blockOf? := by
    intro id block owned
    obtain ⟨instruction, found, owner⟩ := Option.bind_eq_some_iff.mp owned
    obtain ⟨body, block_found, inside⟩ :=
      composed.exists_block_of_owner (content?_of_instruction? found) owner
    exact ⟨body, by rw [block?, block_found], inside⟩
  mem_of_functionOf? := by
    intro id function owned
    obtain ⟨owner, noted, chosen⟩ := Option.bind_eq_some_iff.mp owned
    rcases holds_iff.mp (composed.owner_iff.mp noted)
      with ⟨info, outer_found, listed⟩ | ⟨body, block_found, inside⟩
    · obtain rfl : owner = function := by simpa [function?, outer_found] using chosen
      exact ⟨info, by rw [function?, outer_found], listed.imp_right Or.inl⟩
    · -- The owner is a block, so its own owner is the function.
      simp only [function?, block_found, Option.isSome_none, Bool.false_eq_true, if_false] at chosen
      obtain ⟨info, outer_found, block⟩ := composed.exists_function_of_owner block_found chosen
      have body_found : module.block? owner = some body := by rw [block?, block_found]
      exact ⟨info, by rw [function?, outer_found],
        Or.inr (Or.inr ⟨owner, block, body, body_found, inside⟩)⟩
  parts_once := fun _ _ found part =>
    List.count_eq_one_of_mem composed.nodup_partLists
      (mem_partLists_iff.mpr (composed.held found part))
  others_unowned := by
    intro id content found other
    have unheld : ∀ outer, ¬ module.Holds outer id := fun outer holds => by
      simp [composed.isPart_of_holds holds found] at other
    have unowned : module.owners[id]? = none := by
      rw [Option.eq_none_iff_forall_ne_some]
      exact fun outer noted => unheld outer (composed.owner_iff.mp noted)
    refine ⟨unowned, by simp [blockOf?, unowned], by simp [functionOf?, unowned], ?_⟩
    rw [List.count_eq_zero, mem_partLists_iff, not_exists]
    exact unheld

end Module

namespace Table

variable {table : Table} {module : Module}

private theorem composed_of_link (linked : table.link = .ok module) : module.Composed := by
  obtain ⟨number, is_linked, _⟩ := exists_owners_of_link linked
  have well_formed := wellFormed_of_link linked
  have sound := sound_of_link linked
  have nested := nested_of_link linked
  have blocks : ∀ id info, module.content? id = some (.function info) →
      info.blocks.Nodup ∧ ∀ block ∈ info.blocks, module.RunsWithin info.blocks block := by
    intro id info found
    have function_found : module.function? id = some info := by rw [Module.function?, found]
    have listed := mem_functions_of_link linked function_found
    obtain ⟨other, other_found, within⟩ := sound.functions id listed
    obtain rfl := Option.some.inj (function_found.symm.trans other_found)
    exact ⟨nested.distinct_blocks id listed info function_found, within⟩
  constructor
  case owner_iff => exact owner_iff_holds linked
  case arguments => exact fun found => (is_linked.arguments_of_function well_formed found).2
  case blocks =>
    intro id info found block listed
    obtain ⟨body, block_found, _⟩ := (blocks id info found).2 block listed
    exact ⟨body, Module.content?_of_block? block_found⟩
  case instructions =>
    intro id body found inner inside
    have block_found : module.block? id = some body := by rw [Module.block?, found]
    -- The block belongs to some function, whose blocks hold instructions only.
    obtain ⟨function, listed, info, function_found, block_listed⟩ :=
      nested.no_block_outside id body block_found
    obtain ⟨other, other_found, instructions⟩ :=
      (blocks function info (Module.content?_of_function? function_found)).2 id block_listed
    obtain rfl := Option.some.inj (block_found.symm.trans other_found)
    obtain ⟨instruction, instruction_found, _⟩ := instructions inner inside
    exact ⟨instruction, Module.content?_of_instruction? instruction_found⟩
  case distinct =>
    intro id content found
    cases content with
    | function info =>
      obtain ⟨distinct_arguments, arguments⟩ := is_linked.arguments_of_function well_formed found
      obtain ⟨distinct_blocks, within⟩ := blocks id info found
      simp only [Content.partLists, List.flatten_cons, List.flatten_nil, List.append_nil]
      refine List.nodup_append.mpr ⟨distinct_arguments, distinct_blocks,
        fun argument listed block block_listed => ?_⟩
      rintro rfl
      obtain ⟨_, argument_found⟩ := arguments argument listed
      obtain ⟨_, block_found, _⟩ := within argument block_listed
      simp [Module.block?, argument_found] at block_found
    | basicBlock body =>
      simpa [Content.partLists]
        using nested.distinct_instructions id body (by rw [Module.block?, found])
    | _ => exact List.nodup_nil
  case held => exact is_linked.exists_holds_of_isPart well_formed

/-- Owners are found by number just where the lists of functions and blocks say. -/
theorem ownersFound_of_link (linked : table.link = .ok module) : module.OwnersFound :=
  (composed_of_link linked).ownersFound

/-- A function with an argument and two blocks, a declared one with an argument, and a global, an
alias and a constant that belong to neither. -/
def composing : Table :=
  { types := [{ key := 1, ty := .integer 32 }]
    values :=
      [{ key := 10, tag := .globalVariable, ty := 1,
         payload := .global { initializer := some 20 } },
       { key := 11, tag := .globalAlias, ty := 1, payload := .globalAlias { aliasee := 10 } },
       { key := 20, tag := .constant .int, ty := 1, payload := .constant { intValue := some 7 } },
       { key := 30, tag := .function, ty := 1,
         payload := .function { arguments := [32], blocks := [40, 41] } },
       { key := 31, tag := .function, ty := 1, payload := .function { arguments := [33] } },
       { key := 32, tag := .argument, ty := 1, payload := .argument {} },
       { key := 33, tag := .argument, ty := 1, payload := .argument {} },
       { key := 40, tag := .basicBlock, ty := 1, payload := .block { instructions := [50] } },
       { key := 41, tag := .basicBlock, ty := 1, payload := .block { instructions := [51, 52] } },
       { key := 50, tag := .instruction .br, ty := 1,
         payload := .instruction { operands := [41] } },
       { key := 51, tag := .instruction (.binary .add), ty := 1,
         payload := .instruction { operands := [32, 20] } },
       { key := 52, tag := .instruction .ret, ty := 1,
         payload := .instruction { operands := [51] } }]
    globals := [10]
    aliases := [11]
    functions := [30, 31] }

/-- The last instruction is in the second block of the first function, and the constant behind it is
in none. -/
theorem composing_ownersFound : ∃ module, composing.link = .ok module ∧ module.blockOf? 9 = some 7 ∧
    module.functionOf? 9 = some 2 ∧ module.functionOf? 7 = some 2 ∧ module.blockOf? 7 = none ∧
    module.functionOf? 10 = some 3 ∧ module.partLists.flatten.count 9 = 1 ∧
    module.functionOf? 11 = none := by
  have run : (composing.link.toOption.map fun module => ((module.function? 2).map (·.blocks),
      (module.function? 3).map (·.arguments), module.block? 7,
      (module.content? 11).map (·.isPart))) =
      some (some [5, 7], some [10], some { instructions := [8, 9] }, some false) := by
    decide +kernel
  obtain ⟨module, linked, run⟩ := exists_ok_of_toOption_map run
  simp only [Prod.mk.injEq, Option.map_eq_some_iff] at run
  obtain ⟨⟨info, function, blocks⟩, ⟨other, declared, arguments⟩, block, _, constant, no_part⟩ :=
    run
  have found := ownersFound_of_link linked
  obtain ⟨block_owner, no_block, body, body_found, inside⟩ :=
    found.blocks 2 info function 7 (by simp [blocks])
  obtain rfl := Option.some.inj (block.symm.trans body_found)
  obtain ⟨⟨_, instruction⟩, in_block, in_function⟩ := inside 9 (by decide)
  refine ⟨module, linked, in_block, in_function, block_owner, no_block, ?_, ?_, ?_⟩
  · exact (found.arguments 3 other declared 10 (by simp [arguments])).2.1
  · exact found.parts_once 9 _ (Module.content?_of_instruction? instruction) rfl
  · exact (found.others_unowned 11 _ constant no_part).2.2.1

end Table

end FlowIR
