import FlowIR.Proofs.Module.Soundness

/-!
# Owners

Registration notes the owner of each part: the function of an argument or a block, and the block of
an instruction. No part stands twice in the lists, so it has one owner only, and nothing that comes
after registration changes it.
-/
namespace FlowIR

namespace Table

/-- The blocks of a function. -/
def functionBlocks (table : Table) (key : Key) : List Key :=
  match (table.record? key).map ValueRecord.payload with
  | some (.function fields) => fields.blocks
  | _ => []

/-- A block belongs to its function, and its instructions belong to the block. -/
def blockOwners (table : Table) (function block : Key) : List (Key × Key) :=
  (block, function) :: (table.instructionKeys block).map (·, block)

/-- The parts of a function with their owners, in the order in which they are numbered. -/
def bodyOwners (table : Table) (function : Key) : List (Key × Key) :=
  match (table.record? function).map ValueRecord.payload with
  | some (.function fields) =>
    fields.arguments.map (·, function) ++ fields.blocks.flatMap (table.blockOwners function)
  | _ => []

section

variable {table : Table} {key : Key} {record : ValueRecord} {fields : FunctionFields}
  (found : table.record? key = some record) (payload : record.payload = .function fields)
include found payload

theorem functionBlocks_eq : table.functionBlocks key = fields.blocks := by
  simp [functionBlocks, found, payload]

theorem bodyOwners_eq : table.bodyOwners key =
    fields.arguments.map (·, key) ++ fields.blocks.flatMap (table.blockOwners key) := by
  simp [bodyOwners, found, payload]

end

end Table

namespace Link

open Table (Key ValueRecord)

variable {source : Source} {table : Table} {order : List Key} {pairs : List (Key × Key)}
  {state after : State} {key : Key}

/-! ### Registration -/

/-- Beside the number of each of these parts stands the number of its owner. -/
def Owned (pairs : List (Key × Key)) (state : State) : Prop :=
  ∀ pair ∈ pairs, ∃ id owner, state.ids[pair.1]? = some id ∧ state.ids[pair.2]? = some owner ∧
    state.owners[id]? = some owner

/-- These keys have their numbers, and these parts have their owners. -/
def Placed (table : Table) (order : List Key) (pairs : List (Key × Key)) (state : State) : Prop :=
  Progress table [] order state ∧ Owned pairs state

/-- Owners stay as they are while further keys get their numbers. -/
theorem Owned.append (owned : Owned pairs state) (progress : Progress table [] order state)
    {added : List Key} (progress_after : Progress table [] (order ++ added) after)
    (kept : ∀ (id owner : ValueId), id < order.length → state.owners[id]? = some owner →
      after.owners[id]? = some owner) : Owned pairs after := by
  -- New keys come behind the old ones.
  have same_number : ∀ (key : Key) (id : ValueId), state.ids[key]? = some id →
      after.ids[key]? = some id := by
    intro key id numbered
    rw [progress.numbered] at numbered
    exact (progress_after.numbered key id).mpr (Table.getElem?_append_of_eq_some numbered added)
  intro pair member
  obtain ⟨id, owner, numbered, owner_numbered, noted⟩ := owned pair member
  have bound := (List.getElem?_eq_some_iff.mp ((progress.numbered pair.1 id).mp numbered)).1
  exact ⟨id, owner, same_number pair.1 id numbered, same_number pair.2 owner owner_numbered,
    kept id owner bound noted⟩

/-- The number of a record is the next one, and owners are not touched. -/
theorem register_owners (source : Source) (expected : Tag → Bool) (key : Key) :
    Ensures (register source expected key) state fun id after =>
      id = state.headers.length ∧ after.owners = state.owners := by
  refine ensures_bind (ensures_lift fun record _ => ?_)
  split
  · exact ensures_throw _
  · refine ensures_bind (ensures_get ?_)
    split
    · exact ensures_throw _
    · exact ensures_bind (ensures_lift fun ty _ => ensures_modifyGet ⟨rfl, rfl⟩)

theorem setOwner_eq (id owner : ValueId) :
    Ensures (setOwner id owner) state fun _ after =>
      after = { state with owners := state.owners.insert id owner } :=
  ensures_modify rfl

/-- A loop over keys places what its steps place. Each step may use the numbers from before the
loop. -/
theorem forM_places (keysOf : Key → List Key) (pairsOf : Key → List (Key × Key))
    {body : Key → LinkM Unit} (keys : List Key)
    (each : ∀ key ∈ keys, ∀ added pairs state, Placed table (order ++ added) pairs state →
      Ensures (body key) state fun _ after =>
      Placed table (order ++ added ++ keysOf key) (pairs ++ pairsOf key) after)
    (placed : Placed table order pairs state) :
    Ensures (keys.forM body) state fun _ after =>
      Placed table (order ++ keys.flatMap keysOf) (pairs ++ keys.flatMap pairsOf) after := by
  refine ensures_forM (fun done after =>
    Placed table (order ++ done.flatMap keysOf) (pairs ++ done.flatMap pairsOf) after) keys ?_
      (by simpa using placed)
  intro done key listed state placed
  refine (each key listed _ _ state placed).mono fun _ after step => ?_
  rw [List.flatMap_append, List.flatMap_append, List.flatMap_singleton, List.flatMap_singleton,
    ← List.append_assoc, ← List.append_assoc]
  exact step

section

variable (indexes : source.Indexes table) (placed : Placed table order pairs state)
include indexes placed

private theorem registerPart_places {expected : Tag → Bool} {owner : ValueId} {outer : Key}
    (owner_numbered : order[owner]? = some outer) (reachable : table.Reachable key) :
    Ensures (registerPart source expected owner key) state fun id after =>
      (order ++ [key])[id]? = some key ∧
        Placed table (order ++ [key]) (pairs ++ [(key, outer)]) after := by
  obtain ⟨progress, owned⟩ := placed
  refine ensures_bind (((register_ensures indexes progress reachable).and
    (register_owners source expected key)).mono ?_)
  rintro id between ⟨⟨numbered, _⟩, rfl, untouched⟩
  have next : state.headers.length = order.length := progress.headed.length_eq.symm
  have here : (order ++ [key])[state.headers.length]? = some key := by rw [next]; simp
  refine ensures_bind (((setOwner_ensures numbered _ owner).and (setOwner_eq _ owner)).mono ?_)
  rintro _ after ⟨progress_after, rfl⟩
  refine ensures_pure ⟨here, progress_after, fun pair member => ?_⟩
  rcases List.mem_append.mp member with old | new
  · -- The new number is none of those that had an owner before.
    refine owned.append progress progress_after (fun id owner bound noted => ?_) pair old
    have other : state.headers.length ≠ id := next ▸ Nat.ne_of_gt bound
    simp [untouched, Std.ExtTreeMap.getElem?_insert, other, noted]
  · obtain rfl := List.mem_singleton.mp new
    exact ⟨_, owner, (progress_after.numbered key _).mpr here,
      (progress_after.numbered outer owner).mpr
        (Table.getElem?_append_of_eq_some owner_numbered [key]), by simp⟩

private theorem registerBlock_places {function : ValueId} {outer : Key}
    (function_numbered : order[function]? = some outer) (reachable : table.Reachable key) :
    Ensures (registerBlock source function key) state fun _ after =>
      Placed table (order ++ table.blockKeys key) (pairs ++ table.blockOwners outer key) after := by
  refine ensures_bind (((registerPart_places indexes placed function_numbered reachable).and
    (registerPart_ensures indexes placed.1 function reachable)).mono ?_)
  rintro block between ⟨⟨numbered, block_placed⟩, _, tagged⟩
  refine ensures_bind (ensures_lift fun fields read => ?_)
  obtain ⟨record, found, payload⟩ := (blockFields_eq_ok_iff indexes).mp read
  have tag : record.tag = .basicBlock := by simpa using tagged.of_record found
  refine (forM_places (fun inner => [inner]) (fun inner => [(inner, key)]) fields.instructions ?_
    block_placed).mono ?_
  · intro inner member added pairs state placed
    exact ensures_discard ((registerPart_places indexes placed
      (Table.getElem?_append_of_eq_some numbered added)
        (reachable.in_block found tag payload member)).mono
      fun _ _ step => step.2)
  · intro _ after all_placed
    rw [Table.blockKeys_eq_cons, Table.blockOwners, Table.instructionKeys_eq found payload]
    simpa [← List.map_eq_flatMap] using all_placed

private theorem registerBody_places (tagged : table.HasTag (· = .function) key)
    (reachable : table.Reachable key) :
    Ensures (registerBody source key) state fun _ after =>
      Placed table (order ++ table.bodyKeys key) (pairs ++ table.bodyOwners key) after := by
  refine ensures_bind ((idOf_ensures placed.1 key).mono ?_)
  rintro function _ ⟨rfl, numbered⟩
  refine ensures_bind (ensures_lift fun fields read => ?_)
  obtain ⟨record, found, payload⟩ := (functionFields_eq_ok_iff indexes).mp read
  have tag : record.tag = .function := by simpa using tagged.of_record found
  have inner_reachable : ∀ inner ∈ fields.arguments ++ fields.blocks, table.Reachable inner :=
    fun inner => reachable.in_function found tag payload
  refine ensures_bind
    ((forM_places (fun inner => [inner]) (fun inner => [(inner, key)]) fields.arguments ?_
    placed).mono ?_)
  · intro inner member added pairs state placed
    exact ensures_discard
      ((registerPart_places indexes placed (Table.getElem?_append_of_eq_some numbered added)
      (inner_reachable inner (List.mem_append_left _ member))).mono fun _ _ step => step.2)
  · intro _ between arguments_placed
    refine (forM_places table.blockKeys (table.blockOwners key) fields.blocks ?_
      arguments_placed).mono ?_
    · intro inner member added pairs state placed
      -- The function keeps its number while its arguments and the blocks before are registered.
      have still_numbered := Table.getElem?_append_of_eq_some
        (Table.getElem?_append_of_eq_some numbered (fields.arguments.flatMap fun inner => [inner]))
        added
      exact registerBlock_places indexes placed still_numbered
        (inner_reachable inner (List.mem_append_right _ member))
    · intro _ after all_placed
      rw [Table.bodyKeys_eq found payload, Table.bodyOwners_eq found payload]
      simpa [← List.map_eq_flatMap] using all_placed

end

private theorem registerAll_places (indexes : source.Indexes table) :
    Ensures (registerAll source table) {} fun _ after =>
      Placed table table.listedKeys (table.functions.flatMap table.bodyOwners) after := by
  -- The three lists have no owners, so nothing is to be said about these until the bodies are
  -- registered.
  refine ensures_bind
    ((forM_register_ensures indexes (progress_initial table) fun _ => .global).mono ?_)
  rintro _ _ ⟨progress, _⟩
  refine ensures_bind ((forM_register_ensures indexes progress fun _ => .globalAlias).mono ?_)
  rintro _ _ ⟨progress, _⟩
  refine ensures_bind ((forM_register_ensures indexes progress fun _ => .function).mono ?_)
  rintro _ state ⟨progress, functions⟩
  have unowned : Owned [] state := fun pair member => by cases member
  refine (forM_places table.bodyKeys table.bodyOwners table.functions ?_ ⟨progress, unowned⟩).mono
    ?_
  · intro key listed added pairs state placed
    exact registerBody_places indexes placed (functions key listed) (.function listed)
  · intro _ _ placed
    simpa [Table.listedKeys] using placed

/-! ### Linking -/

private theorem linkParts_owned (indexes : source.Indexes table) (types : List Ty) :
    Ensures (linkParts source types table) {} fun module after =>
      module.owners = after.owners ∧ Owned (table.functions.flatMap table.bodyOwners) after := by
  refine ensures_bind (((registerAll_ensures indexes).and (registerAll_places indexes)).mono ?_)
  rintro _ _ ⟨⟨_, tagged⟩, progress, owned⟩
  -- Only constants are numbered from here on, and they have no owners.
  refine ensures_bind ((linkContents_ensures indexes tagged progress).mono ?_)
  rintro _ _ ⟨order, grows, fills, progress_after, _⟩
  obtain ⟨added, rfl, _⟩ := grows.exists_added
  have owned_after := owned.append progress progress_after fun id owner _ noted =>
    fills.owners ▸ noted
  refine ensures_bind (ensures_get (ensures_bind (ensures_lift fun values _ => ?_)))
  refine ensures_bind ((mapM_idOf_ensures progress_after table.globals).mono ?_)
  rintro _ _ ⟨rfl, _⟩
  refine ensures_bind ((mapM_idOf_ensures progress_after table.aliases).mono ?_)
  rintro _ _ ⟨rfl, _⟩
  refine ensures_bind ((mapM_idOf_ensures progress_after table.functions).mono ?_)
  rintro _ _ ⟨rfl, _⟩
  exact ensures_pure ⟨rfl, owned_after⟩

end Link

namespace Table

variable {table : Table} {number : Key → ValueId} {module : Module} {function block key : Key}

/-! ### Blocks of a well-formed table -/

/-- The block stands in the list of the function. -/
def HasBlock (table : Table) (function block : Key) : Prop :=
  function ∈ table.functions ∧ block ∈ table.functionBlocks function

/-- A block in the lists stands in the list of a function. -/
theorem WellTagged.exists_hasBlock {record : ValueRecord} (tagged : table.WellTagged)
    (listed : key ∈ table.listedKeys) (found : table.record? key = some record)
    (tag : record.tag = .basicBlock) :
    ∃ function, table.HasBlock function key := by
  have only_block : ∀ expected : Tag → Bool, table.HasTag expected key →
      expected .basicBlock = true :=
    fun expected has_tag => tag ▸ has_tag.of_record found
  simp only [listedKeys, List.mem_append, List.mem_flatMap] at listed
  -- Wherever else the key stood, its record would have another tag.
  rcases listed with ((global | other_name) | function) | ⟨function, listed, inner⟩
  · exact absurd (only_block _ (tagged.globals key global)) (by simp)
  · exact absurd (only_block _ (tagged.aliases key other_name)) (by simp)
  · obtain ⟨outer, _, outer_found, outer_tag, _⟩ := tagged.functions key function
    obtain rfl := Option.some.inj (found.symm.trans outer_found)
    rw [tag] at outer_tag
    cases outer_tag
  · obtain ⟨outer, fields, outer_found, _, payload, arguments, blocks⟩ :=
      tagged.functions function listed
    rw [bodyKeys_eq outer_found payload, List.mem_append, List.mem_flatMap] at inner
    refine ⟨function, listed, functionBlocks_eq outer_found payload ▸ ?_⟩
    rcases inner with argument | ⟨block, member, inner⟩
    · exact absurd (only_block _ (arguments key argument)) (by simp)
    · obtain ⟨_, body, body_found, _, body_payload, instructions⟩ := blocks block member
      rw [blockKeys_eq body_found body_payload, List.mem_cons] at inner
      rcases inner with rfl | instruction
      · exact member
      · exact absurd (only_block _ (instructions key instruction)) (by simp [Tag.isInstruction])

/-- A function in the lists stands in the list of functions. -/
theorem WellTagged.mem_functions {record : ValueRecord} (tagged : table.WellTagged)
    (listed : key ∈ table.listedKeys) (found : table.record? key = some record)
    (tag : record.tag = .function) : key ∈ table.functions := by
  have only_function : ∀ expected : Tag → Bool, table.HasTag expected key →
      expected .function = true :=
    fun expected has_tag => tag ▸ has_tag.of_record found
  simp only [listedKeys, List.mem_append, List.mem_flatMap] at listed
  rcases listed with ((global | other_name) | function) | ⟨function, listed, inner⟩
  · exact absurd (only_function _ (tagged.globals key global)) (by simp)
  · exact absurd (only_function _ (tagged.aliases key other_name)) (by simp)
  · exact function
  · -- Arguments, blocks and instructions have tags of their own.
    obtain ⟨outer, fields, outer_found, _, payload, arguments, blocks⟩ :=
      tagged.functions function listed
    rw [bodyKeys_eq outer_found payload, List.mem_append, List.mem_flatMap] at inner
    rcases inner with argument | ⟨block, member, inner⟩
    · exact absurd (only_function _ (arguments key argument)) (by simp)
    · obtain ⟨_, body, body_found, body_tag, body_payload, instructions⟩ := blocks block member
      rw [blockKeys_eq body_found body_payload, List.mem_cons] at inner
      rcases inner with rfl | instruction
      · exact absurd (only_function (· = .basicBlock) ⟨_, body_found, by simp [body_tag]⟩) (by simp)
      · exact absurd (only_function _ (instructions key instruction)) (by simp [Tag.isInstruction])

private theorem WellFormed.nodup_blockKeys (well_formed : table.WellFormed)
    (listed : function ∈ table.functions) :
    ((table.functionBlocks function).flatMap table.blockKeys).Nodup := by
  have distinct := well_formed.distinct_listed
  rw [listedKeys, List.nodup_append] at distinct
  obtain ⟨record, fields, found, _, payload, _⟩ := well_formed.well_tagged.functions function listed
  have body := (List.nodup_flatMap.mp distinct.2.1).1 function listed
  rw [bodyKeys_eq found payload, List.nodup_append] at body
  rw [functionBlocks_eq found payload]
  exact body.2.1

private theorem WellFormed.nodup_functionBlocks (well_formed : table.WellFormed)
    (listed : function ∈ table.functions) :
    (table.functionBlocks function).Nodup := by
  -- A block that stood twice would share its own key with itself.
  refine (List.nodup_flatMap.mp (well_formed.nodup_blockKeys listed)).2.imp fun disjoint same => ?_
  exact disjoint List.mem_cons_self (same ▸ List.mem_cons_self)

namespace HasBlock

variable (has_block : table.HasBlock function block) (well_formed : table.WellFormed)
include has_block well_formed

private theorem isBlock : table.Reachable block ∧ table.IsBlock block := by
  obtain ⟨listed, member⟩ := has_block
  obtain ⟨record, fields, found, tag, payload, _, blocks⟩ :=
    well_formed.well_tagged.functions function listed
  rw [functionBlocks_eq found payload] at member
  have reachable :=
    (Reachable.function listed).in_function found tag payload (List.mem_append_right _ member)
  exact ⟨reachable, blocks block member⟩

private theorem reachable_instruction (inner : key ∈ table.instructionKeys block) :
    table.Reachable key := by
  obtain ⟨reachable, record, fields, found, tag, payload, _⟩ := has_block.isBlock well_formed
  rw [instructionKeys_eq found payload] at inner
  exact reachable.in_block found tag payload inner

/-- The instructions of a block are listed in the order of the block. -/
theorem sublist_listedKeys : (table.instructionKeys block).Sublist table.listedKeys := by
  obtain ⟨listed, member⟩ := has_block
  obtain ⟨record, fields, found, _, payload, _⟩ := well_formed.well_tagged.functions function listed
  rw [functionBlocks_eq found payload] at member
  have in_block : (table.instructionKeys block).Sublist (table.blockKeys block) :=
    List.sublist_cons_self _ _
  have in_body : (table.blockKeys block).Sublist (table.bodyKeys function) := by
    rw [bodyKeys_eq found payload]
    exact (List.sublist_flatten_of_mem (List.mem_map_of_mem member)).trans
      (List.sublist_append_right _ _)
  have in_list : (table.bodyKeys function).Sublist table.listedKeys :=
    (List.sublist_flatten_of_mem (List.mem_map_of_mem listed)).trans (List.sublist_append_right _ _)
  exact in_block.trans (in_body.trans in_list)

private theorem nodup_instructionKeys : (table.instructionKeys block).Nodup :=
  (has_block.sublist_listedKeys well_formed).nodup well_formed.distinct_listed

theorem owners_subset :
    table.blockOwners function block ⊆ table.functions.flatMap table.bodyOwners := by
  obtain ⟨listed, member⟩ := has_block
  obtain ⟨record, fields, found, _, payload, _⟩ := well_formed.well_tagged.functions function listed
  rw [functionBlocks_eq found payload] at member
  intro pair inside
  refine List.mem_flatMap.mpr ⟨function, listed, ?_⟩
  rw [bodyOwners_eq found payload]
  exact List.mem_append_right _ (List.mem_flatMap.mpr ⟨block, member, inside⟩)

end HasBlock

/-! ### Blocks of a linked module -/

namespace IsLinked

variable (linked : table.IsLinked number module) (well_formed : table.WellFormed)
include linked

theorem nodup_map {keys : List Key} (reachable : ∀ key ∈ keys, table.Reachable key)
    (distinct : keys.Nodup) :
    (keys.map number).Nodup :=
  distinct.map_on fun left left_mem right right_mem same =>
    linked.bijective.injOn (reachable left left_mem) (reachable right right_mem) same

/-- The numbers of listed keys grow along the list. -/
theorem pairwise_lt_map {keys : List Key} (part : keys.Sublist table.listedKeys) :
    (keys.map number).Pairwise (· < ·) := by
  have all : (table.listedKeys.map number).Pairwise (· < ·) := by
    rw [linked.listed_first]
    exact List.pairwise_lt_range
  exact all.sublist (part.map number)

include well_formed

private theorem function?_eq (listed : key ∈ table.functions) :
    ∃ info, module.function? (number key) = some info ∧
    info.blocks = (table.functionBlocks key).map number := by
  obtain ⟨record, fields, found, tag, payload, _⟩ := well_formed.well_tagged.functions key listed
  obtain ⟨content, decoded, content_found⟩ := linked.content?_eq (.function listed) found
  simp only [ValueRecord.decode, tag, payload, Except.ok.injEq] at decoded
  subst decoded
  exact ⟨_, by rw [Module.function?, content_found], by rw [functionBlocks_eq found payload]⟩

theorem block?_eq (has_block : table.HasBlock function block) :
    module.block? (number block) =
      some { instructions := (table.instructionKeys block).map number } := by
  obtain ⟨reachable, record, fields, found, tag, payload, _⟩ := has_block.isBlock well_formed
  obtain ⟨content, decoded, content_found⟩ := linked.content?_eq reachable found
  simp only [ValueRecord.decode, tag, payload, Except.ok.injEq] at decoded
  subst decoded
  rw [Module.block?, content_found, instructionKeys_eq found payload]

/-- Every function of the module stands in its list of functions. -/
theorem mem_functions {id : ValueId} {info : FunctionInfo}
    (found : module.function? id = some info) :
    id ∈ module.functions := by
  obtain ⟨value, valued, is_function⟩ :=
    Option.map_eq_some_iff.mp (Module.content?_of_function? found)
  obtain ⟨key, record, reachable, rfl, recorded, _, _, decoded⟩ := linked.exists_key valued
  rw [is_function] at decoded
  have tag : record.tag = .function := (ValueRecord.agrees_of_decode decoded).eq_function
  obtain ⟨_, _, recorded_too, _, _, place⟩ := well_formed.usable key reachable
  obtain rfl := Option.some.inj (recorded.symm.trans recorded_too)
  have listed : key ∈ table.listedKeys := place.resolve_right (by simp [tag, Tag.isConstant])
  rw [linked.functions]
  exact List.mem_map_of_mem (well_formed.well_tagged.mem_functions listed recorded tag)

/-- Every block of the module comes from a block of a function. -/
theorem exists_hasBlock {id : ValueId} {body : BlockInfo} (found : module.block? id = some body) :
    ∃ function block, table.HasBlock function block ∧ number block = id ∧
      body.instructions = (table.instructionKeys block).map number := by
  obtain ⟨value, valued, is_block⟩ := Option.map_eq_some_iff.mp (Module.content?_of_block? found)
  obtain ⟨key, record, reachable, rfl, recorded, _, _, decoded⟩ := linked.exists_key valued
  rw [is_block] at decoded
  have tag : record.tag = .basicBlock := (ValueRecord.agrees_of_decode decoded).eq_basicBlock
  -- What can be reached is listed, or it is a constant.
  obtain ⟨_, _, recorded_too, _, _, place⟩ := well_formed.usable key reachable
  obtain rfl := Option.some.inj (recorded.symm.trans recorded_too)
  have listed : key ∈ table.listedKeys := place.resolve_right (by simp [tag, Tag.isConstant])
  obtain ⟨function, has_block⟩ := well_formed.well_tagged.exists_hasBlock listed recorded tag
  have same := linked.block?_eq well_formed has_block
  rw [found, Option.some.injEq] at same
  exact ⟨function, key, has_block, rfl, by rw [same]⟩

end IsLinked

end Table

/-! ### Nested modules -/

/-- Every block stands once in the list of one function, and every instruction of a block stands
once in the list of that block only. -/
structure Module.Nested (module : Module) : Prop where
  distinct_blocks : ∀ function ∈ module.functions, ∀ info, module.function? function = some info →
    info.blocks.Nodup
  function_of_block : ∀ function ∈ module.functions, ∀ info, module.function? function = some info →
    ∀ block ∈ info.blocks, module.owners[block]? = some function
  no_block_outside : ∀ block body, module.block? block = some body →
    ∃ function ∈ module.functions, ∃ info, module.function? function = some info ∧
      block ∈ info.blocks
  distinct_instructions : ∀ block body, module.block? block = some body → body.instructions.Nodup
  block_of_instruction : ∀ block body, module.block? block = some body →
    ∀ id ∈ body.instructions, module.owners[id]? = some block

namespace Table

variable {table : Table} {module : Module}

open Link in
theorem exists_owners_of_link (linked : table.link = .ok module) :
    ∃ number, table.IsLinked number module ∧
    ∀ pair ∈ table.functions.flatMap table.bodyOwners,
      module.owners[number pair.1]? = some (number pair.2) := by
  obtain ⟨_, records, ids, types, recorded, typed, finished⟩ := link_eq_ok_iff.mp linked
  have indexes := indexes_of_link recorded typed
  obtain ⟨after, ⟨tagged, order, grows, progress, collected, globals, aliases, functions⟩,
      owners, owned⟩ :=
    ((linkParts_ensures indexes types).and (linkParts_owned indexes types)).exists_after finished
  refine ⟨order.idxOf, isLinked_of_progress tagged grows progress collected globals aliases
    functions, ?_⟩
  intro pair member
  obtain ⟨id, owner, numbered, owner_numbered, noted⟩ := owned pair member
  rw [progress.numbered] at numbered owner_numbered
  change module.owners[order.idxOf pair.1]? = some (order.idxOf pair.2)
  rw [progress.idxOf_eq numbered, progress.idxOf_eq owner_numbered, owners, noted]

theorem nested_of_link (linked : table.link = .ok module) : module.Nested := by
  obtain ⟨number, is_linked, owners⟩ := exists_owners_of_link linked
  have well_formed := wellFormed_of_link linked
  -- Each field is shown for the keys of the table, where the lists have no repetition, and carried
  -- along the numbers.
  have from_key : ∀ function ∈ module.functions, ∀ info, module.function? function = some info →
      ∃ key ∈ table.functions, number key = function ∧
          info.blocks = (table.functionBlocks key).map number := by
    intro function listed info found
    rw [is_linked.functions] at listed
    obtain ⟨key, key_listed, rfl⟩ := List.mem_map.mp listed
    obtain ⟨other, other_found, blocks⟩ := is_linked.function?_eq well_formed key_listed
    obtain rfl := Option.some.inj (found.symm.trans other_found)
    exact ⟨key, key_listed, rfl, blocks⟩
  constructor
  case distinct_blocks =>
    intro function listed info found
    obtain ⟨key, key_listed, _, blocks⟩ := from_key function listed info found
    rw [blocks]
    refine is_linked.nodup_map (fun block member => ?_)
      (well_formed.nodup_functionBlocks key_listed)
    exact (HasBlock.isBlock ⟨key_listed, member⟩ well_formed).1
  case function_of_block =>
    intro function listed info found id member
    obtain ⟨key, key_listed, rfl, blocks⟩ := from_key function listed info found
    rw [blocks] at member
    obtain ⟨block, block_listed, rfl⟩ := List.mem_map.mp member
    have has_block : table.HasBlock key block := ⟨key_listed, block_listed⟩
    exact owners (block, key) (has_block.owners_subset well_formed List.mem_cons_self)
  case no_block_outside =>
    intro id body found
    obtain ⟨function, block, has_block, rfl, _⟩ := is_linked.exists_hasBlock well_formed found
    obtain ⟨info, info_found, blocks⟩ := is_linked.function?_eq well_formed has_block.1
    refine ⟨number function, ?_, info, info_found, blocks ▸ List.mem_map_of_mem has_block.2⟩
    rw [is_linked.functions]
    exact List.mem_map_of_mem has_block.1
  case distinct_instructions =>
    intro id body found
    obtain ⟨function, block, has_block, _, instructions⟩ :=
      is_linked.exists_hasBlock well_formed found
    rw [instructions]
    exact is_linked.nodup_map (fun key inner => has_block.reachable_instruction well_formed inner)
      (has_block.nodup_instructionKeys well_formed)
  case block_of_instruction =>
    intro id body found inner member
    obtain ⟨function, block, has_block, rfl, instructions⟩ :=
      is_linked.exists_hasBlock well_formed found
    rw [instructions] at member
    obtain ⟨key, inside, rfl⟩ := List.mem_map.mp member
    refine owners (key, block) (has_block.owners_subset well_formed (List.mem_cons_of_mem _ ?_))
    exact List.mem_map_of_mem inside

theorem mem_functions_of_link {function : ValueId} {info : FunctionInfo}
    (linked : table.link = .ok module) (found : module.function? function = some info) :
    function ∈ module.functions := by
  obtain ⟨number, is_linked, _⟩ := exists_owners_of_link linked
  exact is_linked.mem_functions (wellFormed_of_link linked) found

end Table

end FlowIR
