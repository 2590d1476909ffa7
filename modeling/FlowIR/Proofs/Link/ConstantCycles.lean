import FlowIR.Proofs.Link.InProgress

/-!
# Cycles of constants

The calls of linking one after the other: it starts with none, and the constants in progress are
handed on from each call to the next. At every moment these are the constants on the path of the
recursion. The recursion ends, also where constants contain themselves. A cycle is reported only
where there is one, and nothing that leads to one is linked.
-/
namespace FlowIR

open Table (Key ValueRecord)

namespace Link

variable {source : Source} {table : Table} {machine later : Machine} {state : State} {call : Call}
  {key : Key} {α β : Type}

/-! ### Moments of linking -/

/-- The machines that linking a table goes through. An outermost call is made when the lists are
numbered, or when another one has returned. Only contents are filled in between. -/
inductive Moment (source : Source) (table : Table) : Machine → Prop where
  | first {state : State} {call : Call} (registered : (registerAll source table).run {} =
      .ok ((), state)) (outermost : call.IsOutermost) (contents : Std.ExtTreeMap ValueId Content) :
      Moment source table ⟨.calling call, [], ∅, { state with contents }⟩
  | next {machine : Machine} {returned call : Call} {answer : Except LinkError returned.Answer}
      (moment : Moment source table machine) (returns : machine.control =
        .returning returned answer)
      (alone : machine.frames = []) (outermost : call.IsOutermost)
        (contents : Std.ExtTreeMap ValueId Content) :
      Moment source table ⟨.calling call, [], machine.inProgress, { machine.state with contents }⟩
  | step {machine later : Machine} (moment : Moment source table machine)
      (steps : machine.step source = some later) : Moment source table later

private theorem Moment.reaches (moment : Moment source table machine)
    (reaches : machine.Reaches source later) :
    Moment source table later := by
  induction reaches with
  | refl => exact moment
  | tail _ steps ih => exact .step ih steps

/-- What is listed is no constant. -/
theorem not_leadsToCycle_of_registered (indexes : source.Indexes table)
    (registered : (registerAll source table).run {} = .ok ((), state))
    (numbered : key ∈ state.ids) :
    ¬ table.LeadsToCycle key := by
  intro leads
  obtain ⟨inner, ⟨record, found, constant, _⟩, _⟩ := leads.exists_inner
  obtain ⟨progress, tagged⟩ := registerAll_ensures indexes () state registered
  have other_tag := (tagged.not_constant (progress.mem_iff.mpr numbered)).of_record found
  simp [constant] at other_tag

private theorem Moment.valid (indexes : source.Indexes table)
    (moment : Moment source table machine) :
    Valid table machine := by
  induction moment with
  | first registered outermost contents =>
    exact {
      distinct := .nil
      guarded := by
        intro key
        simp [path]
      acyclic := fun key numbered => not_leadsToCycle_of_registered indexes registered numbered
      stacked := .outermost outermost
      warranted := by rintro _ _ ⟨⟩ }
  | next _ _ alone outermost contents ih =>
    -- The path is empty again, and so is the set.
    have guarded := ih.guarded
    simp only [Machine.Guarded, alone] at guarded
    exact {
      distinct := .nil
      guarded := guarded
      acyclic := ih.acyclic
      stacked := .outermost outermost
      warranted := by rintro _ _ ⟨⟩ }
  | step _ steps ih => exact ih.step indexes steps

/-! ### The end of calls -/

/-- The machine does not go on forever. -/
def Machine.Ends (source : Source) (machine : Machine) : Prop :=
  Acc (fun later earlier : Machine => earlier.step source = some later) machine

/-- A machine has one way to go on only, so it is enough that this one ends. -/
theorem ends_of_reaches (reaches : machine.Reaches source later) (done : later.step source = none) :
    machine.Ends source := by
  induction reaches using Relation.ReflTransGen.head_induction_on with
  | refl =>
    constructor
    intro other steps
    cases done.symm.trans steps
  | head steps _ ih =>
    constructor
    intro other other_steps
    obtain rfl := Option.some.inj (steps.symm.trans other_steps)
    exact ih

private theorem keyed_of_indexes (indexes : source.Indexes table) : source.Keyed := by
  intro key record found
  rw [indexes.records] at found
  exact Table.key_of_record? found

private theorem Moment.ends (indexes : source.Indexes table)
    (moment : Moment source table machine) :
    machine.Ends source := by
  have keyed := keyed_of_indexes indexes
  induction moment with
  | @first state call registered outermost contents =>
    have valid := (Moment.first registered outermost contents).valid indexes
    obtain ⟨_, _, reaches, _⟩ := completes_link keyed call _ valid.guarded
    exact ends_of_reaches reaches rfl
  | @next machine returned call answer moment returns alone outermost contents ih =>
    have valid := (moment.next returns alone outermost contents).valid indexes
    obtain ⟨_, _, reaches, _⟩ := completes_link keyed call _ valid.guarded
    exact ends_of_reaches reaches rfl
  | step _ steps ih => exact ih.inv steps

/-! ### The outcome of calls -/

private theorem Gives.ok {result : α} {after other : State} {outcome : Except LinkError (α × State)}
    {answer : Except LinkError α} (gives : Gives outcome answer after)
    (succeeds : outcome = .ok (result, other)) :
    answer = .ok result ∧ after = other := by
  subst succeeds
  exact gives

private theorem Gives.failsOnly {allowed : LinkError → Prop} {after : State}
    {outcome : Except LinkError (α × State)} {answer : Except LinkError α}
    (gives : Gives outcome answer after) (fails_only : FailsOnly allowed answer) :
    FailsOnly allowed outcome := by
  cases outcome with
  | error error =>
    obtain rfl : answer = .error error := gives
    exact fails_only
  | ok pair => trivial

/-- What the machine has returned in the end was warranted. -/
theorem Moment.outcome (indexes : source.Indexes table) (moment : Moment source table machine)
    (calls : machine.control = .calling call) :
    FailsOnly (LinkError.CyclesIn table)
      ((call.link source (path machine.frames)).run machine.state) ∧
      Ensures (call.link source (path machine.frames)) machine.state fun _ _ =>
        ∀ key ∈ call.keys, ¬ table.LeadsToCycle key := by
  obtain ⟨control, frames, inProgress, state⟩ := machine
  obtain rfl : control = .calling call := calls
  obtain ⟨answer, after, reaches, gives⟩ :=
    completes_link (keyed_of_indexes indexes) call _ (moment.valid indexes).guarded
  have valid := (moment.reaches reaches).valid indexes
  have warranted := valid.warranted call answer rfl
  constructor
  · exact gives.failsOnly warranted.fails_only
  · intro result other succeeds key asked
    exact valid.acyclic key (warranted.numbered result (gives.ok succeeds).1 key asked)

/-! ### Between the calls -/

/-- Any outermost call may be made in this state. -/
def Rests (source : Source) (table : Table) (state : State) : Prop :=
  ∃ inProgress, ∀ (call : Call) (contents : Std.ExtTreeMap ValueId Content), call.IsOutermost →
    Moment source table ⟨.calling call, [], inProgress, { state with contents }⟩

/-- The action keeps the invariant if it succeeds. It reports no cycle but those that are there. -/
def Maintains (table : Table) (invariant : State → Prop) (action : LinkM α) : Prop :=
  ∀ state, invariant state → FailsOnly (LinkError.CyclesIn table) (action.run state) ∧
    Ensures action state fun _ after => invariant after

section

variable {invariant : State → Prop}

private theorem maintains_pure (result : α) : Maintains table invariant (pure result : LinkM α) :=
  fun _ holds => ⟨trivial, ensures_pure holds⟩

private theorem maintains_get : Maintains table invariant (get : LinkM State) :=
  fun _ holds => ⟨trivial, ensures_get holds⟩

private theorem maintains_throw {error : LinkError} (cycles : error.CyclesIn table) :
    Maintains table invariant (throw error : LinkM α) :=
  fun _ _ => ⟨cycles, ensures_throw error⟩

private theorem maintains_modify {change : State → State}
    (keeps : ∀ state, invariant state → invariant (change state)) :
    Maintains table invariant (modify change : LinkM Unit) :=
  fun state holds => ⟨trivial, ensures_modify (keeps state holds)⟩

private theorem maintains_lift {computation : Except LinkError α}
    (fails_only : FailsOnly (LinkError.CyclesIn table) computation) :
    Maintains table invariant (liftM computation : LinkM α) := by
  intro state holds
  refine ⟨?_, ensures_lift fun _ _ => holds⟩
  cases computation with
  | error error => exact fails_only
  | ok result => trivial

private theorem Maintains.bind {first : LinkM α} {next : α → LinkM β}
    (starts : Maintains table invariant first)
    (continues : ∀ result, Maintains table invariant (next result)) :
    Maintains table invariant (first >>= next) := by
  intro state holds
  obtain ⟨fails_only, ensures⟩ := starts state holds
  constructor
  · rw [StateT.run_bind]
    apply fails_only.bind
    intro pair succeeds
    exact (continues pair.1 pair.2 (ensures pair.1 pair.2 succeeds)).1
  · apply ensures_bind
    exact ensures.mono fun result between kept => (continues result between kept).2

private theorem Maintains.discard {action : LinkM α}
    (maintains : Maintains table invariant action) :
    Maintains table invariant (discard action) := by
  show Maintains table invariant ((fun _ => ()) <$> action)
  rw [map_eq_pure_bind]
  exact maintains.bind fun _ => maintains_pure ()

private theorem maintains_forM {body : Key → LinkM Unit}
    (each : ∀ key, Maintains table invariant (body key)) (keys : List Key) :
    Maintains table invariant (keys.forM body) := by
  induction keys with
  | nil => exact maintains_pure ()
  | cons first rest ih => exact (each first).bind fun _ => ih

private theorem maintains_mapM {body : Key → LinkM ValueId}
    (each : ∀ key, Maintains table invariant (body key)) (keys : List Key) :
    Maintains table invariant (keys.mapM body) := by
  induction keys with
  | nil => exact maintains_pure []
  | cons first rest ih =>
    rw [List.mapM_cons]
    apply (each first).bind
    intro id
    exact ih.bind fun _ => maintains_pure _

private theorem cyclesIn_record (source : Source) (key : Key) :
    FailsOnly (LinkError.CyclesIn table) (source.record key) := by
  rw [Source.record]
  split <;> trivial

private theorem maintains_record (source : Source) (key : Key) :
    Maintains table invariant (liftM (source.record key) : LinkM ValueRecord) :=
  maintains_lift (cyclesIn_record source key)

private theorem maintains_functionFields (source : Source) (key : Key) :
    Maintains table invariant (liftM (functionFields source key) : LinkM Table.FunctionFields) := by
  apply maintains_lift
  apply (cyclesIn_record source key).bind
  intro record _
  split <;> trivial

private theorem maintains_blockFields (source : Source) (key : Key) :
    Maintains table invariant (liftM (blockFields source key) : LinkM Table.BlockFields) := by
  apply maintains_lift
  apply (cyclesIn_record source key).bind
  intro record _
  split <;> trivial

private theorem maintains_idOf (key : Key) : Maintains table invariant (idOf key) := by
  apply maintains_get.bind
  intro state
  split
  · exact maintains_pure _
  · exact maintains_throw trivial

end

/-! ### Numbering the lists -/

/-- Nothing is asked of the states. -/
abbrev Cautious (table : Table) (action : LinkM α) : Prop := Maintains table (fun _ => True) action

private theorem cautious_register (source : Source) (expected : Tag → Bool) (key : Key) :
    Cautious table (register source expected key) := by
  apply (maintains_record source key).bind
  intro record
  split
  · exact maintains_throw trivial
  apply maintains_get.bind
  intro state
  split
  · exact maintains_throw trivial
  apply (maintains_lift (cyclesIn_of_keyless (keyless_lookupType source.typeIds record.ty))).bind
  exact fun ty _ _ => ⟨trivial, fun _ _ _ => trivial⟩

private theorem cautious_registerPart (source : Source) (expected : Tag → Bool) (owner : ValueId)
    (key : Key) :
    Cautious table (registerPart source expected owner key) := by
  apply (cautious_register source expected key).bind
  intro id
  have owned : Cautious table (setOwner id owner) := maintains_modify fun _ _ => trivial
  exact owned.bind fun _ => maintains_pure id

private theorem cautious_registerBlock (source : Source) (function : ValueId) (key : Key) :
    Cautious table (registerBlock source function key) := by
  apply (cautious_registerPart source _ function key).bind
  intro block
  apply (maintains_blockFields source key).bind
  intro fields
  exact maintains_forM (fun inner => (cautious_registerPart source _ block inner).discard)
    fields.instructions

private theorem cautious_registerBody (source : Source) (key : Key) :
    Cautious table (registerBody source key) := by
  apply (maintains_idOf key).bind
  intro function
  apply (maintains_functionFields source key).bind
  intro fields
  apply (maintains_forM (fun inner => (cautious_registerPart source _ function inner).discard)
    fields.arguments).bind
  intro _
  exact maintains_forM (cautious_registerBlock source function) fields.blocks

private theorem cautious_registerAll (source : Source) :
    Cautious table (registerAll source table) := by
  have list : ∀ expected keys,
      Cautious table (List.forM keys fun key => discard (register source expected key)) :=
    fun expected keys =>
      maintains_forM (fun key => (cautious_register source expected key).discard) keys
  apply (list _ table.globals).bind
  intro _
  apply (list _ table.aliases).bind
  intro _
  apply (list _ table.functions).bind
  intro _
  exact maintains_forM (cautious_registerBody source) table.functions

/-! ### Filling in contents -/

private theorem maintains_define (key : Key) (content : Content) :
    Maintains table (Rests source table) (do define (← idOf key) content) := by
  apply (maintains_idOf key).bind
  intro id
  apply maintains_modify
  rintro state ⟨inProgress, moments⟩
  exact ⟨inProgress, moments⟩

private theorem maintains_linkArgument (key : Key) :
    Maintains table (Rests source table) (linkArgument source key) := by
  apply (maintains_record source key).bind
  intro record
  have fields_fail : FailsOnly (LinkError.CyclesIn table) (argumentFields record) := by
    rw [argumentFields]
    split <;> trivial
  exact (maintains_lift fields_fail).bind fun _ => maintains_define key _

section

variable (indexes : source.Indexes table)
include indexes

/-- An outermost call starts and ends between the calls. -/
theorem maintains_link (call : Call) (outermost : call.IsOutermost) :
    Maintains table (Rests source table) (call.link source []) := by
  rintro state ⟨inProgress, moments⟩
  have moment : Moment source table ⟨.calling call, [], inProgress, state⟩ :=
    moments call state.contents outermost
  constructor
  · exact (moment.outcome indexes rfl).1
  · intro result after succeeds
    obtain ⟨answer, last, reaches, gives⟩ :=
      completes_link (keyed_of_indexes indexes) call _ (moment.valid indexes).guarded
    obtain ⟨rfl, rfl⟩ := gives.ok succeeds
    -- The call that comes next finds the set that this one has found.
    exact ⟨inProgress, fun other contents other_outermost =>
      (moment.reaches reaches).next rfl rfl other_outermost contents⟩

private theorem maintains_operand (key : Key) :
    Maintains table (Rests source table) (operand source key) :=
  maintains_link indexes (.operand key) trivial

private theorem maintains_linkGlobal (key : Key) :
    Maintains table (Rests source table) (linkGlobal source key) := by
  apply (maintains_record source key).bind
  intro record
  split
  next fields _ =>
    have initializer : Maintains table (Rests source table)
        (fields.initializer.mapM (operand source)) := by
      cases fields.initializer with
      | none => exact maintains_pure none
      | some inner => exact (maintains_operand indexes inner).bind fun _ => maintains_pure _
    exact initializer.bind fun _ => maintains_define key _
  next => exact maintains_throw trivial

private theorem maintains_linkAlias (key : Key) :
    Maintains table (Rests source table) (linkAlias source key) := by
  apply (maintains_record source key).bind
  intro record
  split
  next fields _ =>
    exact (maintains_operand indexes fields.aliasee).bind fun _ => maintains_define key _
  next => exact maintains_throw trivial

private theorem maintains_linkBodyInstruction (blocks : List ValueId) (key : Key) :
    Maintains table (Rests source table) (linkBodyInstruction source blocks key) := by
  apply (maintains_record source key).bind
  intro record
  have fields_fail : FailsOnly (LinkError.CyclesIn table) (instructionFields record) := by
    rw [instructionFields]
    split <;> trivial
  apply (maintains_lift fields_fail).bind
  intro fields
  have instruction : Maintains table (Rests source table)
      (linkInstruction (operand source) record.tag fields) :=
    maintains_link indexes (.instruction record.tag fields) trivial
  apply instruction.bind
  intro linked
  apply (maintains_lift (cyclesIn_of_keyless (keyless_checkTargets blocks record.tag linked))).bind
  exact fun _ => maintains_define key _

private theorem maintains_linkBlock (blocks : List ValueId) (key : Key) :
    Maintains table (Rests source table) (linkBlock source blocks key) := by
  apply (maintains_blockFields source key).bind
  intro fields
  apply (maintains_forM (maintains_linkBodyInstruction indexes blocks) fields.instructions).bind
  intro _
  exact (maintains_mapM maintains_idOf fields.instructions).bind fun _ => maintains_define key _

private theorem maintains_linkFunction (key : Key) :
    Maintains table (Rests source table) (linkFunction source key) := by
  apply (maintains_functionFields source key).bind
  intro fields
  apply (maintains_forM maintains_linkArgument fields.arguments).bind
  intro _
  apply (maintains_mapM maintains_idOf fields.blocks).bind
  intro blocks
  apply (maintains_forM (maintains_linkBlock indexes blocks) fields.blocks).bind
  intro _
  exact (maintains_mapM maintains_idOf fields.arguments).bind fun _ => maintains_define key _

private theorem maintains_linkContents :
    Maintains table (Rests source table) (linkContents source table) := by
  apply (maintains_forM (maintains_linkGlobal indexes) table.globals).bind
  intro _
  apply (maintains_forM (maintains_linkAlias indexes) table.aliases).bind
  intro _
  exact maintains_forM (maintains_linkFunction indexes) table.functions

private theorem cyclesIn_linkParts (types : List Ty) :
    FailsOnly (LinkError.CyclesIn table) ((linkParts source types table).run {}) := by
  rw [linkParts, StateT.run_bind]
  apply (cautious_registerAll source {} trivial).1.bind
  rintro ⟨_, state⟩ registered
  -- Nothing is in progress when the lists have been numbered.
  have rests : Rests source table state :=
    ⟨∅, fun call contents outermost => .first registered outermost contents⟩
  refine (((maintains_linkContents indexes).bind fun _ => ?_) state rests).1
  -- The values are collected without any more calls.
  apply maintains_get.bind
  intro after
  apply (maintains_lift (cyclesIn_of_keyless (keyless_values after))).bind
  intro values
  apply (maintains_mapM maintains_idOf table.globals).bind
  intro globals
  apply (maintains_mapM maintains_idOf table.aliases).bind
  intro aliases
  apply (maintains_mapM maintains_idOf table.functions).bind
  exact fun functions => maintains_pure _

end

end Link

open Link in
private theorem Table.cyclesIn_link (table : Table) :
    FailsOnly (LinkError.CyclesIn table) table.link := by
  rw [Table.link]
  split
  · trivial
  apply FailsOnly.bind
  · apply failsOnly_foldlM
    intro records record
    split <;> trivial
  intro records recorded
  apply (cyclesIn_of_keyless (keyless_linkTypes table.types)).bind
  rintro ⟨typeIds, types⟩ typed
  have fails_only := cyclesIn_linkParts (indexes_of_link recorded typed) types
  show FailsOnly _ ((linkParts { records, typeIds } types table).run' {})
  rw [StateT.run'_eq]
  exact fails_only.map

/-! ### Constants that contain themselves -/

open Link in
/-- Whatever the constants of the table contain, linking an operand, a constant or an instruction
comes to its end. The constants in progress are those on the path, each of them once, and after a
call they are the same as before. A cycle is reported only for a constant that contains itself, and
what leads to a cycle is never linked. -/
theorem Table.link_constants {table : Table} {source : Source} {types : List Ty}
    (recorded : recordsByKey table.values = .ok source.records)
    (typed : linkTypes table.types = .ok (source.typeIds, types)) :
    (∀ machine, Moment source table machine →
      machine.Ends source ∧ (path machine.frames).Nodup ∧ machine.Guarded ∧
      ∀ call, machine.control = .calling call →
        Completes source machine call ((call.link source (path machine.frames)).run machine.state) ∧
        (∀ key, (call.link source (path machine.frames)).run machine.state =
          .error (.constantCycle key) →
          Relation.TransGen table.Contains key key) ∧
        ∀ key ∈ call.keys, table.LeadsToCycle key →
          ¬ Succeeds (call.link source (path machine.frames)) machine.state) ∧
    ∀ key, table.link = .error (.constantCycle key) → Relation.TransGen table.Contains key key := by
  have indexes : source.Indexes table := indexes_of_link recorded typed
  constructor
  · intro machine moment
    have valid := moment.valid indexes
    refine ⟨moment.ends indexes, valid.distinct, valid.guarded, fun call calls => ?_⟩
    obtain ⟨fails_only, ensures⟩ := moment.outcome indexes calls
    refine ⟨completes_link (keyed_of_indexes indexes) call machine valid.guarded, ?_, ?_⟩
    · intro key failed
      rw [failed] at fails_only
      exact fails_only
    · rintro key asked leads ⟨result, after, succeeds⟩
      exact ensures result after succeeds key asked leads
  · intro key failed
    have fails_only := table.cyclesIn_link
    rw [failed] at fails_only
    exact fails_only

/-- The first global holds a number, whose record has a field that is not used. The second one leads
to two structures that contain each other. -/
def Table.entangled : Table :=
  { types := [{ key := 1, ty := .integer 32 }]
    values :=
      [{ key := 10, tag := .globalVariable, ty := 1,
         payload := .global { initializer := some 20 } },
       { key := 11, tag := .globalVariable, ty := 1,
         payload := .global { initializer := some 21 } },
       { key := 20, tag := .constant .int, ty := 1,
         payload := .constant { intValue := some 7, operands := [20] } },
       { key := 21, tag := .constant .array, ty := 1,
         payload := .constant { operands := [20, 30] } },
       { key := 30, tag := .constant .struct, ty := 1, payload := .constant { operands := [31] } },
       { key := 31, tag := .constant .struct, ty := 1,
         payload := .constant { operands := [10, 30] } }]
    globals := [10, 11] }

private theorem Table.entangled_leadsToCycle : entangled.LeadsToCycle 21 := by
  have outer : entangled.Contains 21 30 := ⟨_, rfl, rfl, by decide⟩
  have first : entangled.Contains 30 31 := ⟨_, rfl, rfl, by decide⟩
  have second : entangled.Contains 31 30 := ⟨_, rfl, rfl, by decide⟩
  exact ⟨30, .single outer, .tail (.single first) second⟩

open Link in
theorem Table.entangled_link_constants : ∃ source types state,
    recordsByKey entangled.values = .ok source.records ∧
    linkTypes entangled.types = .ok (source.typeIds, types) ∧
    (registerAll source entangled).run {} = .ok ((), state) ∧
    Moment source entangled ⟨.calling (.operand 21), [], ∅, state⟩ ∧
    Machine.Ends source ⟨.calling (.operand 21), [], ∅, state⟩ ∧
    (operand source 21).run state = .error (.constantCycle 30) ∧
    ¬ Succeeds (operand source 21) state ∧
    entangled.link = .error (.constantCycle 30) ∧ Relation.TransGen entangled.Contains 30 30 := by
  have run : ((recordsByKey entangled.values).toOption.bind fun records =>
      (linkTypes entangled.types).toOption.bind fun typed =>
      ((registerAll { records, typeIds := typed.1 } entangled).run {}).toOption.map
        fun registered =>
        ((operand { records, typeIds := typed.1 } 21).run registered.2).map Prod.fst) =
      some (.error (.constantCycle 30)) := by
    decide +kernel
  have link_run : entangled.link.map (fun _ => ()) = .error (.constantCycle 30) := by decide +kernel
  obtain ⟨records, recorded, run⟩ := exists_ok_of_toOption_bind run
  obtain ⟨⟨typeIds, types⟩, typed, run⟩ := exists_ok_of_toOption_bind run
  obtain ⟨⟨_, state⟩, registered, run⟩ := exists_ok_of_toOption_map run
  have outermost : Call.IsOutermost (.operand 21) := trivial
  have moment : Moment { records, typeIds } entangled ⟨.calling (.operand 21), [], ∅, state⟩ :=
    .first registered outermost state.contents
  obtain ⟨moments, link_cycle⟩ :=
    @Table.link_constants entangled { records, typeIds } types recorded typed
  obtain ⟨ends, _, _, calls⟩ := moments _ moment
  obtain ⟨_, _, refused⟩ := calls (.operand 21) rfl
  have fails : (operand { records, typeIds } 21).run state = .error (.constantCycle 30) :=
    eq_error_of_map run
  have link_fails : entangled.link = .error (.constantCycle 30) := eq_error_of_map link_run
  exact ⟨{ records, typeIds }, types, state, recorded, typed, registered, moment, ends, fails,
    refused 21 List.mem_cons_self entangled_leadsToCycle, link_fails, link_cycle 30 link_fails⟩

end FlowIR
