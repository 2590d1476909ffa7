import FlowIR.Proofs.Link.Bijection
import FlowIR.Proofs.Link.Keyless

/-!
# Keys that are looked up while linking

Linking asks for the number of a listed key only when all listed keys have theirs. So whatever stops
it, it is never that a listed key has no number: if a key is reported as unresolved, then no list
leads to it.
-/
namespace FlowIR

open Table (Key ValueRecord InstructionFields ConstantFields)

/-- None of the keys is reported as unresolved. -/
def LinkError.Spares (keys : List Key) : LinkError → Prop
  | knotTyingFailure key => key ∉ keys
  | _ => True

namespace Link

variable {source : Source} {table : Table} {known spared : List Key} {key : Key} {α β : Type}

def Knows (known : List Key) (state : State) : Prop := ∀ key ∈ known, key ∈ state.ids

/-- The known keys still have numbers, or linking stopped for another reason than one of the spared
keys. -/
def Safe (known spared : List Key) : Except LinkError (α × State) → Prop
  | .ok (_, after) => Knows known after
  | .error error => error.Spares spared

/-- Wherever the known keys have numbers, the action is safe. -/
def Guarded (known spared : List Key) (action : LinkM α) : Prop :=
  ∀ state, Knows known state → Safe known spared (action.run state)

/-- The same for a computation outside of the state. -/
abbrev Sparing (spared : List Key) (computation : Except LinkError α) : Prop :=
  FailsOnly (LinkError.Spares spared) computation

/-! ### Rules -/

private theorem guarded_pure (result : α) : Guarded known spared (pure result : LinkM α) :=
  fun _ knows => knows

private theorem guarded_get : Guarded known spared (get : LinkM State) :=
  fun _ knows => knows

private theorem guarded_throw {error : LinkError} (spares : error.Spares spared) :
    Guarded known spared (throw error : LinkM α) :=
  fun _ _ => spares

private theorem guarded_modify {change : State → State}
    (keeps : ∀ state, (change state).ids = state.ids) :
    Guarded known spared (modify change : LinkM Unit) := by
  intro state knows
  show Knows known (change state)
  rw [Knows, keeps]
  exact knows

private theorem Guarded.bind {first : LinkM α} {next : α → LinkM β}
    (starts : Guarded known spared first)
    (continues : ∀ result, Guarded known spared (next result)) :
    Guarded known spared (first >>= next) := by
  intro state knows
  have safe := starts state knows
  rw [StateT.run_bind]
  cases outcome : first.run state with
  | error error =>
    rw [outcome] at safe
    exact safe
  | ok pair =>
    rw [outcome] at safe
    exact continues pair.1 pair.2 safe

/-- What the computation gave is known in what follows. -/
theorem guarded_lift_bind {computation : Except LinkError α} {next : α → LinkM β}
    (sparing : Sparing spared computation)
    (continues : ∀ result, computation = .ok result → Guarded known spared (next result)) :
    Guarded known spared ((liftM computation : LinkM α) >>= next) := by
  cases computation with
  | error error => exact fun _ _ => sparing
  | ok result => exact continues result rfl

private theorem guarded_lift {computation : Except LinkError α}
    (sparing : Sparing spared computation) :
    Guarded known spared (liftM computation : LinkM α) := by
  cases computation with
  | error error => exact fun _ _ => sparing
  | ok result => exact guarded_pure result

private theorem guarded_forM {body : Key → LinkM Unit} {keys : List Key}
    (each : ∀ key ∈ keys, Guarded known spared (body key)) :
    Guarded known spared (keys.forM body) := by
  induction keys with
  | nil => exact guarded_pure ()
  | cons first rest ih =>
    apply Guarded.bind (each first List.mem_cons_self)
    exact fun _ => ih fun key member => each key (List.mem_cons_of_mem first member)

private theorem guarded_mapM {body : Key → LinkM ValueId} {keys : List Key}
    (each : ∀ key ∈ keys, Guarded known spared (body key)) :
    Guarded known spared (keys.mapM body) := by
  induction keys with
  | nil => exact guarded_pure []
  | cons first rest ih =>
    rw [List.mapM_cons]
    apply Guarded.bind (each first List.mem_cons_self)
    intro id
    apply Guarded.bind (ih fun key member => each key (List.mem_cons_of_mem first member))
    exact fun _ => guarded_pure _

private theorem guarded_option_mapM {body : Key → LinkM ValueId} {key? : Option Key}
    (each : ∀ key, Guarded known spared (body key)) : Guarded known spared (key?.mapM body) := by
  cases key? with
  | none => exact guarded_pure none
  | some key => exact Guarded.bind (each key) fun _ => guarded_pure _

/-! ### Computations outside of the state -/

/-- An error that names no record leaves every key alone. -/
theorem sparing_of_keyless {computation : Except LinkError α} (keyless : Keyless computation) :
    Sparing spared computation := by
  apply keyless.mono
  intro error nameless
  cases error with
  | knotTyingFailure key => exact nameless.elim
  | _ => trivial

private theorem sparing_record (source : Source) (key : Key) :
    Sparing spared (source.record key) := by
  rw [Source.record]
  split <;> trivial

private theorem sparing_functionFields (source : Source) (key : Key) :
    Sparing spared (functionFields source key) := by
  apply (sparing_record source key).bind
  intro record _
  split <;> trivial

private theorem sparing_blockFields (source : Source) (key : Key) :
    Sparing spared (blockFields source key) := by
  apply (sparing_record source key).bind
  intro record _
  split <;> trivial

private theorem sparing_present (record : ValueRecord) (given : Option α) :
    Sparing spared (present record given) := by
  cases given <;> trivial

/-! ### Numbers -/

/-- A key that is known has a number. -/
theorem guarded_idOf (listed : key ∈ known) : Guarded known spared (idOf key) := by
  intro state knows
  obtain ⟨id, found⟩ :=
    Option.isSome_iff_exists.mp (Std.ExtTreeMap.mem_iff_isSome_getElem?.mp (knows key listed))
  have runs : (idOf key).run state = .ok (id, state) := by
    simp [idOf, found]
    rfl
  rw [runs]
  exact knows

private theorem guarded_define (id : ValueId) (content : Content) :
    Guarded known spared (define id content) :=
  guarded_modify fun _ => rfl

private theorem guarded_define_idOf (listed : key ∈ known) (content : Content) :
    Guarded known spared (do define (← idOf key) content) :=
  (guarded_idOf listed).bind fun id => guarded_define id content

private theorem guarded_allocate (source : Source) (record : ValueRecord) :
    Guarded known spared (allocate source record) := by
  apply guarded_lift_bind (sparing_of_keyless (keyless_lookupType source.typeIds record.ty))
  intro ty _ state knows other member
  show other ∈ state.ids.insert record.key state.headers.length
  exact Std.ExtTreeMap.mem_insert.mpr (Or.inr (knows other member))

/-! ### Contents -/

section

variable {operand : Key → LinkM ValueId} (each : ∀ key, Guarded known spared (operand key))
include each

private theorem guarded_linkInstruction (tag : Tag) (fields : InstructionFields) :
    Guarded known spared (linkInstruction operand tag fields) :=
  (guarded_mapM fun key _ => each key).bind fun _ =>
    guarded_lift (sparing_of_keyless (keyless_decode ..))

private theorem guarded_linkConstant (record : ValueRecord) (fields : ConstantFields)
    (tag : ConstantTag) :
    Guarded known spared (linkConstant operand record fields tag) := by
  have operands : Guarded known spared (fields.operands.mapM operand) :=
    guarded_mapM fun key _ => each key
  cases tag with
  | aggregateZero | pointerNull | undef => exact guarded_pure _
  | int | float | string =>
    exact guarded_lift_bind (sparing_present record _) fun _ _ => guarded_pure _
  | array | struct | vector => exact operands.bind fun _ => guarded_pure _
  | blockAddress =>
    apply operands.bind
    intro ids
    exact guarded_lift (sparing_of_keyless (keyless_linkBlockAddress record ids))
  | expr =>
    apply guarded_lift_bind (sparing_present record fields.expr)
    intro expr _
    exact (guarded_linkInstruction each expr.opcode expr.instruction).bind fun _ => guarded_pure _
  | inlineAsm => exact guarded_throw trivial

private theorem guarded_linkConstantContent (record : ValueRecord) (tag : ConstantTag) :
    Guarded known spared (linkConstantContent operand record tag) := by
  have fields_sparing : Sparing spared (constantFields record) := by
    rw [constantFields]
    split <;> trivial
  by_cases assembly : tag = .inlineAsm
  · subst assembly
    rw [linkConstantContent]
    split
    · exact guarded_pure _
    · exact guarded_throw trivial
  · rw [linkConstantContent_eq operand record assembly]
    apply guarded_lift_bind fields_sparing
    intro fields _
    exact (guarded_linkConstant each record fields tag).bind fun _ => guarded_pure _

end

/-- By induction on the constants around the key. A key without a number is none of the known ones,
so it may be reported. -/
theorem guarded_operandWithin (source : Source) (enclosing : List Key) (key : Key) :
    Guarded known known (operandWithin source enclosing key) := by
  induction enclosing, key using operandWithin.induct source with
  | case1 enclosing key ih =>
    rw [operandWithin]
    intro state knows
    rw [StateT.run_bind, StateT.run_get, pure_bind]
    split
    · exact knows
    next unknown =>
      -- Keys that are known have had numbers from the start.
      have unlisted : key ∉ known := by
        intro listed
        have present := Std.ExtTreeMap.mem_iff_isSome_getElem?.mp (knows key listed)
        simp [unknown] at present
      split
      · trivial
      next record found =>
        split
        next tag _ =>
          split
          · trivial
          next fresh =>
            have content := guarded_linkConstantContent (fun inner => ih record found fresh inner)
              record tag
            refine (content.bind fun linked => ?_) state knows
            apply (guarded_allocate source record).bind
            intro id
            exact (guarded_define id linked).bind fun _ => guarded_pure id
        next =>
          split
          · trivial
          · exact unlisted

/-! ### The parts of a module -/

section

variable {listed : List Key}

private theorem guarded_linkGlobal (source : Source) (member : key ∈ listed) :
    Guarded listed listed (linkGlobal source key) := by
  apply guarded_lift_bind (sparing_record source key)
  intro record _
  split
  next fields _ =>
    apply (guarded_option_mapM fun key => guarded_operandWithin source [] key).bind
    exact fun initializer => guarded_define_idOf member _
  next => exact guarded_throw trivial

private theorem guarded_linkAlias (source : Source) (member : key ∈ listed) :
    Guarded listed listed (linkAlias source key) := by
  apply guarded_lift_bind (sparing_record source key)
  intro record _
  split
  next fields _ =>
    apply (guarded_operandWithin source [] fields.aliasee).bind
    exact fun aliasee => guarded_define_idOf member _
  next => exact guarded_throw trivial

private theorem guarded_linkArgument (source : Source) (member : key ∈ listed) :
    Guarded listed listed (linkArgument source key) := by
  apply guarded_lift_bind (sparing_record source key)
  intro record _
  have fields_sparing : Sparing listed (argumentFields record) := by
    rw [argumentFields]
    split <;> trivial
  apply guarded_lift_bind fields_sparing
  exact fun fields _ => guarded_define_idOf member _

private theorem guarded_linkBodyInstruction (source : Source) (blocks : List ValueId)
    (member : key ∈ listed) :
    Guarded listed listed (linkBodyInstruction source blocks key) := by
  apply guarded_lift_bind (sparing_record source key)
  intro record _
  have fields_sparing : Sparing listed (instructionFields record) := by
    rw [instructionFields]
    split <;> trivial
  apply guarded_lift_bind fields_sparing
  intro fields _
  apply (guarded_linkInstruction (guarded_operandWithin source []) record.tag fields).bind
  intro instruction
  apply (guarded_lift
    (sparing_of_keyless (keyless_checkTargets blocks record.tag instruction))).bind
  exact fun _ => guarded_define_idOf member _

private theorem guarded_linkBlock {source : Source} (blocks : List ValueId) (member : key ∈ listed)
    (inside : ∀ fields, blockFields source key = .ok fields → fields.instructions ⊆ listed) :
    Guarded listed listed (linkBlock source blocks key) := by
  apply guarded_lift_bind (sparing_blockFields source key)
  intro fields read
  have instructions := inside fields read
  apply (guarded_forM fun inner inner_member =>
    guarded_linkBodyInstruction source blocks (instructions inner_member)).bind
  intro _
  apply (guarded_mapM fun inner inner_member => guarded_idOf (instructions inner_member)).bind
  exact fun ids => guarded_define_idOf member _

end

private theorem lists_subset (table : Table) :
    table.globals ⊆ table.listedKeys ∧ table.aliases ⊆ table.listedKeys ∧
    table.functions ⊆ table.listedKeys := by
  refine ⟨?_, ?_, ?_⟩ <;> exact fun key member => by simp [Table.listedKeys, member]

/-- What the body of a listed function holds is listed, too. -/
theorem bodyKeys_subset (function_listed : key ∈ table.functions) :
    table.bodyKeys key ⊆ table.listedKeys := by
  intro inner member
  exact List.mem_append_right _ (List.mem_flatMap.mpr ⟨key, function_listed, member⟩)

private theorem guarded_linkFunction (indexes : source.Indexes table)
    (function_listed : key ∈ table.functions) :
    Guarded table.listedKeys table.listedKeys (linkFunction source key) := by
  apply guarded_lift_bind (sparing_functionFields source key)
  intro fields read
  obtain ⟨record, found, payload⟩ := (functionFields_eq_ok_iff indexes).mp read
  -- All that is asked for in the body stands in the lists of its record.
  have body := bodyKeys_subset function_listed
  rw [Table.bodyKeys_eq found payload] at body
  obtain ⟨arguments, block_bodies⟩ := List.append_subset.mp body
  have block_body : ∀ block ∈ fields.blocks, table.blockKeys block ⊆ table.listedKeys := by
    intro block member inner inside
    exact block_bodies (List.mem_flatMap.mpr ⟨block, member, inside⟩)
  have block_listed : ∀ block ∈ fields.blocks, block ∈ table.listedKeys :=
    fun block member => block_body block member List.mem_cons_self
  have known_function : key ∈ table.listedKeys := (lists_subset table).2.2 function_listed
  apply (guarded_forM fun inner member => guarded_linkArgument source (arguments member)).bind
  intro _
  apply (guarded_mapM fun block member => guarded_idOf (block_listed block member)).bind
  intro ids
  apply Guarded.bind
  · apply guarded_forM
    intro block member
    apply guarded_linkBlock ids (block_listed block member)
    intro inner_fields inner_read
    obtain ⟨inner_record, inner_found, inner_payload⟩ :=
      (blockFields_eq_ok_iff indexes).mp inner_read
    have inside := block_body block member
    rw [Table.blockKeys_eq inner_found inner_payload] at inside
    exact (List.cons_subset.mp inside).2
  intro _
  apply (guarded_mapM fun inner member => guarded_idOf (arguments member)).bind
  exact fun argument_ids => guarded_define_idOf known_function _

private theorem guarded_linkContents (indexes : source.Indexes table) :
    Guarded table.listedKeys table.listedKeys (linkContents source table) := by
  obtain ⟨global_listed, alias_listed, _⟩ := lists_subset table
  apply (guarded_forM fun key member => guarded_linkGlobal source (global_listed member)).bind
  intro _
  apply (guarded_forM fun key member => guarded_linkAlias source (alias_listed member)).bind
  intro _
  exact guarded_forM fun key member => guarded_linkFunction indexes member

/-! ### Numbering the lists -/

private theorem guarded_register (source : Source) (expected : Tag → Bool) (key : Key) :
    Guarded known spared (register source expected key) := by
  apply guarded_lift_bind (sparing_record source key)
  intro record _
  split
  · exact guarded_throw trivial
  · intro state knows
    change Safe known spared (StateT.run (if key ∈ state.ids then _ else _) state)
    split
    · trivial
    · exact guarded_allocate source record state knows

private theorem guarded_registerPart (source : Source) (expected : Tag → Bool) (owner : ValueId)
    (key : Key) :
    Guarded known spared (registerPart source expected owner key) := by
  apply (guarded_register source expected key).bind
  intro id
  have owned : Guarded known spared (setOwner id owner) := guarded_modify fun _ => rfl
  exact owned.bind fun _ => guarded_pure id

private theorem guarded_discard {action : LinkM α} (guarded : Guarded known spared action) :
    Guarded known spared (discard action) := by
  change Guarded known spared ((fun _ => ()) <$> action)
  rw [map_eq_pure_bind]
  exact guarded.bind fun _ => guarded_pure ()

private theorem guarded_registerBlock (source : Source) (function : ValueId) (key : Key) :
    Guarded known spared (registerBlock source function key) := by
  apply (guarded_registerPart source _ function key).bind
  intro block
  apply guarded_lift_bind (sparing_blockFields source key)
  intro fields _
  exact guarded_forM fun inner _ => guarded_discard (guarded_registerPart source _ block inner)

private theorem guarded_registerBody (source : Source) (member : key ∈ known) :
    Guarded known spared (registerBody source key) := by
  apply (guarded_idOf member).bind
  intro function
  apply guarded_lift_bind (sparing_functionFields source key)
  intro fields _
  apply (guarded_forM fun inner _ =>
    guarded_discard (guarded_registerPart source _ function inner)).bind
  intro _
  exact guarded_forM fun block _ => guarded_registerBlock source function block

/-! ### All of linking -/

/-- What stops a sequence is what stops its first action, or its second one after the first has
succeeded. -/
theorem Safe.bind {state : State} {first : LinkM α} {next : α → LinkM β}
    (starts : Safe known spared (first.run state))
    (continues : Ensures first state fun result after => Safe [] spared ((next result).run after)) :
    Safe [] spared ((first >>= next).run state) := by
  rw [StateT.run_bind]
  cases outcome : first.run state with
  | error error =>
    rw [outcome] at starts
    exact starts
  | ok pair => exact continues pair.1 pair.2 outcome

private theorem Safe.weaken {outcome : Except LinkError (α × State)}
    (safe : Safe known spared outcome) :
    Safe [] spared outcome := by
  cases outcome with
  | error error => exact safe
  | ok pair => exact fun _ member => absurd member List.not_mem_nil

private theorem Safe.run' {action : LinkM α} {state : State}
    (safe : Safe known spared (action.run state)) :
    Sparing spared (action.run' state) := by
  rw [StateT.run'_eq]
  cases outcome : action.run state with
  | error error =>
    rw [outcome] at safe
    exact safe
  | ok pair => trivial

private theorem knows_of_progress {order : List Key} {state : State}
    (progress : Progress table [] order state) (subset : known ⊆ order) : Knows known state :=
  fun _ member => progress.mem_iff.mp (subset member)

private theorem registerAll_safe (indexes : source.Indexes table) :
    Safe [] spared ((registerAll source table).run {}) := by
  have nothing : ∀ state, Knows [] state := fun _ _ member => absurd member List.not_mem_nil
  have loop : ∀ (expected : Tag → Bool) (keys : List Key),
      Guarded [] spared (keys.forM fun key => discard (register source expected key)) :=
    fun expected keys =>
      guarded_forM fun key _ => guarded_discard (guarded_register source expected key)
  apply Safe.bind (loop _ _ _ (nothing _))
  refine (forM_register_ensures indexes (progress_initial table) fun _ => .global).mono ?_
  rintro _ _ ⟨progress, _⟩
  apply Safe.bind (loop _ _ _ (nothing _))
  refine (forM_register_ensures indexes progress fun _ => .globalAlias).mono ?_
  rintro _ _ ⟨progress, _⟩
  apply Safe.bind (loop _ _ _ (nothing _))
  refine (forM_register_ensures indexes progress fun _ => .function).mono ?_
  rintro _ after ⟨progress, _⟩
  -- All functions have their numbers now, and their bodies ask for no other number.
  have functions_known : Knows table.functions after :=
    knows_of_progress progress (List.subset_append_right _ _)
  exact (guarded_forM fun key member => guarded_registerBody source member) after
    functions_known |>.weaken

private theorem linkParts_safe (indexes : source.Indexes table) (types : List Ty) :
    Safe [] table.listedKeys ((linkParts source types table).run {}) := by
  refine Safe.bind (registerAll_safe indexes) ((registerAll_ensures indexes).mono ?_)
  rintro _ state ⟨progress, _⟩
  -- All listed keys are numbered once they are registered, and from then on none of them can be
  -- missed.
  have known : Knows table.listedKeys state := knows_of_progress progress (List.Subset.refl _)
  obtain ⟨global_listed, alias_listed, function_listed⟩ := lists_subset table
  refine Safe.weaken (((guarded_linkContents indexes).bind fun _ => ?_) state known)
  apply guarded_get.bind
  intro after
  apply (guarded_lift (sparing_of_keyless (keyless_values after))).bind
  intro values
  apply (guarded_mapM fun key member => guarded_idOf (global_listed member)).bind
  intro globals
  apply (guarded_mapM fun key member => guarded_idOf (alias_listed member)).bind
  intro aliases
  apply (guarded_mapM fun key member => guarded_idOf (function_listed member)).bind
  exact fun functions => guarded_pure _

end Link

open Link in
/-- A key that is reported as unresolved stands in none of the lists. -/
theorem Table.not_listed_of_unresolved {table : Table} {key : Key}
    (failed : table.link = .error (.knotTyingFailure key)) : key ∉ table.listedKeys := by
  have records_sparing : Sparing table.listedKeys (recordsByKey table.values) := by
    apply failsOnly_foldlM
    intro byKey record
    split <;> trivial
  have sparing : Sparing table.listedKeys table.link := by
    rw [Table.link]
    split
    · trivial
    · apply records_sparing.bind
      intro records recorded
      apply (sparing_of_keyless (keyless_linkTypes table.types)).bind
      rintro ⟨ids, types⟩ typed
      exact (linkParts_safe (indexes_of_link recorded typed) types).run'
  rw [failed] at sparing
  exact sparing

end FlowIR
