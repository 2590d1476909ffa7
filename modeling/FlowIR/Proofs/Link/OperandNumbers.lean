import FlowIR.Proofs.ControlFlow.Graphs
import FlowIR.Proofs.Link.Contents

/-!
# The operands of linked instructions

Linking an instruction first gives numbers to its operands, one after the other, and then decodes
it. No number is taken back, so the numbers that are decoded are those that the keys have in the
end. Decoding only distributes them over the parts of the instruction: read off in order, they are
all still there.
-/
namespace FlowIR

/-! ### Targets among the operands -/

namespace Instruction

private theorem map_snd_sublist_flattenPairs (pairs : List (ValueId × ValueId)) :
    (pairs.map Prod.snd).Sublist (flattenPairs pairs) := by
  induction pairs with
  | nil => exact .slnil
  | cons pair rest ih =>
    rw [List.map_cons, flattenPairs, List.flatMap_cons]
    exact .cons _ (ih.cons_cons _)

/-- Control goes to some of the operands, in their order. -/
theorem successorBlocks_sublist_operands (instruction : Instruction) :
    instruction.successorBlocks.Sublist instruction.operands := by
  cases instruction with
  | switch value defaultBlock cases =>
    exact .cons _ ((map_snd_sublist_flattenPairs cases).cons_cons _)
  | condBr condition thenBlock elseBlock => exact List.sublist_cons_self _ _
  | indirectBr address targets => exact List.sublist_cons_self _ _
  | invoke site normalBlock unwindBlock => exact List.sublist_append_right _ _
  | br target => exact .refl _
  | _ => exact List.nil_sublist _

private theorem isTerminator_of_successorBlocks {instruction : Instruction}
    (goes_on : instruction.successorBlocks ≠ []) :
    instruction.isTerminator = true := by
  cases instruction <;> simp_all [successorBlocks, isTerminator]

end Instruction

namespace Link

open Table (Key ValueRecord InstructionFields ConstantFields)

variable {α β : Type} {source : Source} {enclosing : List Key}

/-! ### Numbers are kept -/

/-- Whatever had a number still has the same one. -/
def State.Keeps (state after : State) : Prop :=
  ∀ (key : Key) (id : ValueId), state.ids[key]? = some id → after.ids[key]? = some id

private theorem State.Keeps.refl (state : State) : state.Keeps state := fun _ _ numbered => numbered

private theorem State.Keeps.trans {state between after : State} (first : state.Keeps between)
    (second : between.Keeps after) :
    state.Keeps after :=
  fun key id numbered => second key id (first key id numbered)

/-- The action keeps all numbers wherever it starts. -/
def Steady (action : LinkM α) : Prop :=
  ∀ state, Ensures action state fun _ after => state.Keeps after

private theorem steady_pure (result : α) : Steady (pure result) :=
  fun state => ensures_pure (.refl state)

private theorem steady_throw (error : LinkError) : Steady (throw error : LinkM α) :=
  fun _ => ensures_throw error

private theorem steady_lift (computation : Except LinkError α) :
    Steady (liftM computation : LinkM α) :=
  fun state => ensures_lift fun _ _ => .refl state

private theorem Steady.bind {first : LinkM α} {next : α → LinkM β} (starts : Steady first)
    (continues : ∀ result, Steady (next result)) : Steady (first >>= next) := by
  intro state
  refine ensures_bind ((starts state).mono fun result between kept => ?_)
  exact (continues result between).mono fun _ _ kept_later => kept.trans kept_later

private theorem steady_mapM {body : Key → LinkM ValueId} (each : ∀ key, Steady (body key))
    (keys : List Key) :
    Steady (keys.mapM body) := by
  intro state
  refine ensures_mapM (fun _ _ after => state.Keeps after) keys (fun _ _ key _ between kept => ?_)
    (.refl state)
  exact (each key between).mono fun _ _ kept_later => kept.trans kept_later

section

variable {operand : Key → LinkM ValueId} (each : ∀ key, Steady (operand key))
include each

private theorem steady_linkInstruction (tag : Tag) (fields : InstructionFields) :
    Steady (linkInstruction operand tag fields) :=
  (steady_mapM each fields.operands).bind fun _ => steady_lift _

private theorem steady_linkConstant (record : ValueRecord) (fields : ConstantFields)
    (tag : ConstantTag) :
    Steady (linkConstant operand record fields tag) := by
  have operands : Steady (fields.operands.mapM operand) := steady_mapM each fields.operands
  cases tag with
  | aggregateZero | pointerNull | undef => exact steady_pure _
  | int | float | string => exact (steady_lift _).bind fun _ => steady_pure _
  | array | struct | vector => exact operands.bind fun _ => steady_pure _
  | blockAddress => exact operands.bind fun _ => steady_lift _
  | expr =>
    refine (steady_lift _).bind fun expr => ?_
    exact (steady_linkInstruction each expr.opcode expr.instruction).bind fun _ => steady_pure _
  | inlineAsm => exact steady_throw _

private theorem steady_linkConstantContent (record : ValueRecord) (tag : ConstantTag) :
    Steady (linkConstantContent operand record tag) := by
  by_cases assembly : tag = .inlineAsm
  · subst assembly
    rw [linkConstantContent]
    split
    · exact steady_pure _
    · exact steady_throw _
  · rw [linkConstantContent_eq operand record assembly]
    refine (steady_lift _).bind fun fields => ?_
    exact (steady_linkConstant each record fields tag).bind fun _ => steady_pure _

end

/-! ### The numbers of operands -/

/-- Every record is found under its own key. -/
def Source.Keyed (source : Source) : Prop :=
  ∀ (key : Key) (record : ValueRecord), source.records[key]? = some record → record.key = key

private theorem keyed_of_recordsByKey {records : List ValueRecord}
    (recorded : recordsByKey records = .ok source.records) :
    source.Keyed := by
  intro key record found
  rw [@recordsByKey_getElem? { values := records } _ recorded] at found
  simpa using List.find?_some found

private theorem ensures_allocate (record : ValueRecord) (state : State) :
    Ensures (allocate source record) state fun id after =>
      after.ids = state.ids.insert record.key id :=
  ensures_bind (ensures_lift fun _ _ => ensures_modifyGet rfl)

/-- The content that is defined in the end does not change any number. -/
theorem ensures_settle (record : ValueRecord) (content : Content) (state : State) :
    Ensures (settle source record content) state fun id after =>
      after.ids = state.ids.insert record.key id := by
  apply ensures_bind
  refine (ensures_allocate record state).mono fun id allocated inserted => ?_
  exact ensures_bind (ensures_modify (ensures_pure inserted))

/-- By induction on the constants around the key. A key that gets a number now had none before, so
no other number is lost, also not while the constant is linked that it stands for. -/
theorem operandWithin_numbers (keyed : source.Keyed) (enclosing : List Key) (key : Key)
    (state : State) :
    Ensures (operandWithin source enclosing key) state fun id after =>
      state.Keeps after ∧ after.ids[key]? = some id := by
  induction enclosing, key using operandWithin.induct source generalizing state with
  | case1 enclosing key ih =>
    rw [operandWithin]
    refine ensures_bind (ensures_get ?_)
    split
    next id numbered => exact ensures_pure ⟨.refl state, numbered⟩
    next unknown =>
      split
      · exact ensures_throw _
      next record found =>
        split
        next tag tagged =>
          split
          · exact ensures_throw _
          next fresh =>
            -- Whatever the constant refers to is linked first, and keeps all numbers.
            have each : ∀ inner, Steady (operandWithin source (key :: enclosing) inner) :=
              fun inner state =>
                (ih record found fresh inner state).mono fun _ _ numbered => numbered.1
            refine ensures_bind
              ((steady_linkConstantContent each record tag state).mono
              fun content between kept => ?_)
            refine (ensures_settle record content between).mono fun id after inserted => ?_
            rw [keyed key record found] at inserted
            constructor
            · intro other number numbered
              have different : key ≠ other := by
                rintro rfl
                simp [unknown] at numbered
              rw [inserted, Std.ExtTreeMap.getElem?_insert, if_neg (by simpa using different)]
              exact kept other number numbered
            · rw [inserted, Std.ExtTreeMap.getElem?_insert_self]
        next =>
          split
          · exact ensures_throw _
          · exact ensures_throw _

/-- The keys have these numbers. -/
def State.Numbers (state : State) : List Key → List ValueId → Prop :=
  List.Forall₂ fun key id => state.ids[key]? = some id

private theorem mapM_operandWithin_numbers (keyed : source.Keyed) (enclosing keys : List Key)
    (state : State) :
    Ensures (keys.mapM (operandWithin source enclosing)) state fun ids after =>
      after.Numbers keys ids := by
  refine ensures_mapM (fun done ids (after : State) => after.Numbers done ids) keys ?_ .nil
  intro done ids key _ between numbered
  refine (operandWithin_numbers keyed enclosing key between).mono fun id after numbered_now => ?_
  -- Linking one more operand leaves the numbers of those before it as they are.
  have still_numbered : after.Numbers done ids := numbered.imp fun other number =>
    numbered_now.1 other number
  exact List.rel_append still_numbered (.cons numbered_now.2 .nil)

/-! ### Instructions -/

/-- The operands of a linked instruction are the numbers of the keys that it was linked from, in
their order. Control goes to some of them, also in their order, and only from a terminator. -/
theorem linkInstruction_operands {records : List ValueRecord}
    (recorded : recordsByKey records = .ok source.records) {tag : Tag} {fields : InstructionFields}
    {instruction : Instruction} {state after : State}
    (linked : (linkInstruction (operandWithin source enclosing) tag fields).run state =
      .ok (instruction, after)) :
    (fields.operands.mapM (operandWithin source enclosing)).run state =
      .ok (instruction.operands, after) ∧
      after.Numbers fields.operands instruction.operands ∧
      instruction.successorBlocks.Sublist instruction.operands ∧
      (∀ id, (instruction.branches id).map Prod.fst = instruction.successorBlocks) ∧
      (instruction.successorBlocks ≠ [] → instruction.isTerminator = true) := by
  rw [linkInstruction, StateT.run_bind, bind_eq_ok_iff] at linked
  obtain ⟨⟨operands, between⟩, resolved, lifted⟩ := linked
  -- Decoding does not touch the state.
  have decodes :
      Ensures (liftM (Instruction.decode tag fields operands) : LinkM Instruction) between
        fun result after => Instruction.decode tag fields operands = .ok result ∧ after = between :=
    ensures_lift fun _ computed => ⟨computed, rfl⟩
  obtain ⟨decoded, rfl⟩ := decodes instruction after lifted
  obtain rfl := Instruction.operands_of_decode decoded
  have numbered := mapM_operandWithin_numbers (keyed_of_recordsByKey recorded) enclosing
    fields.operands state
  exact ⟨resolved, numbered _ _ resolved, instruction.successorBlocks_sublist_operands,
    fun id => instruction.map_fst_branches id, Instruction.isTerminator_of_successorBlocks⟩

/-- The table has one constant, and the first two keys of a switch have numbers already. -/
def caseRecords : List ValueRecord := [
  { key := 12, tag := .constant .int, ty := 5, payload := .constant { intValue := some 7 } }]

def caseState : State where
  headers := [{ name := none, ty := 0, location := none },
    { name := none, ty := 0, location := none }]
  ids := [(10, 0), (11, 1)].foldl (fun ids (key, id) => ids.insert key id) ∅

def linkSwitch (records : Std.ExtTreeMap Key ValueRecord) :
    Except LinkError (Instruction × State) :=
  (linkInstruction (operandWithin { records, typeIds := (∅ : TypeIds).insert 5 0 } [])
    (.instruction .switch) { operands := [10, 11, 12, 11] }).run caseState

/-- The constant gets its number while the switch is linked, and the switch has it in its place. -/
theorem linkSwitch_operands : ∃ records instruction after, recordsByKey caseRecords = .ok records ∧
    linkSwitch records = .ok (instruction, after) ∧ instruction.operands = [0, 1, 2, 1] ∧
    after.ids[(12 : Key)]? = some 2 ∧ instruction.successorBlocks = [1, 1] ∧
      instruction.isTerminator = true := by
  have run :
      ((recordsByKey caseRecords).toOption.bind fun records =>
      (linkSwitch records).toOption.map fun linked =>
      (linked.1.operands, linked.1.successorBlocks)) = some ([0, 1, 2, 1], [1, 1]) := by
    decide +kernel
  obtain ⟨records, recorded, run⟩ := exists_ok_of_toOption_bind run
  obtain ⟨⟨instruction, after⟩, linked, run⟩ := exists_ok_of_toOption_map run
  obtain ⟨operands, targets⟩ := Prod.mk.inj run
  obtain ⟨_, numbered, _, _, terminates⟩ := linkInstruction_operands recorded linked
  simp only [State.Numbers, operands, List.forall₂_cons] at numbered
  obtain ⟨_, _, numbered, _⟩ := numbered
  exact ⟨records, instruction, after, recorded, linked, operands, numbered, targets,
    terminates (by simp [targets])⟩

end Link

end FlowIR
