import FlowIR.Proofs.Link.OperandNumbers
import Mathlib.Logic.Relation

/-!
# Linking operands call by call

Operands, constants, their contents and instructions are linked by functions that call each other.
Here this recursion is taken apart into single steps of a machine. Its frames are the calls that
wait for another call, and it keeps one set of the constants that are in progress: a constant enters
the set when its content is asked for, and leaves it when that call returns, with or without an
error. Every call comes to an end, gives what linking gives, and leaves the set as it was.
-/
namespace FlowIR.Link

open Table (Key ValueRecord InstructionFields ConstantFields)

/-! ### The machine -/

inductive Call where
  | operand (key : Key)
  | operands (keys : List Key)
  | constant (record : ValueRecord) (tag : ConstantTag)
  | content (record : ValueRecord) (tag : ConstantTag)
  | instruction (tag : Tag) (fields : InstructionFields)

/-- What a call returns when it succeeds. -/
abbrev Call.Answer : Call → Type
  | operand _ | constant _ _ => ValueId
  | operands _ => List ValueId
  | content _ _ => Content
  | instruction _ _ => Instruction

inductive Control where
  | calling (call : Call)
  | returning (call : Call) (answer : Except LinkError call.Answer)

/-- A call that waits for another one. -/
inductive Frame where
  /-- For the constant that the key stands for. -/
  | operand (key : Key)
  /-- For the first one of several operands. -/
  | first (key : Key) (rest : List Key)
  /-- For the other ones, when the first one has its number. -/
  | others (key : Key) (id : ValueId) (rest : List Key)
  /-- For the content of the constant. -/
  | constant (record : ValueRecord) (tag : ConstantTag)
  /-- For the elements of the content. -/
  | elements (record : ValueRecord) (tag : ConstantTag) (fields : ConstantFields)
  /-- For the instruction of a constant expression. -/
  | expression (record : ValueRecord)
  /-- For the operands of the instruction. -/
  | instruction (tag : Tag) (fields : InstructionFields)

/-- The innermost call stands first among the frames. -/
structure Machine where
  control : Control
  frames : List Frame
  inProgress : Std.ExtTreeSet Key
  state : State

namespace Machine

def answer (machine : Machine) (call : Call) (answer : Except LinkError call.Answer) : Machine :=
  { machine with control := .returning call answer }

/-- Waits for another call. -/
def call (machine : Machine) (frame : Frame) (call : Call) : Machine :=
  { machine with control := .calling call, frames := frame :: machine.frames }

/-- Waits for the content of a constant, which is in progress from now on. -/
def enclose (machine : Machine) (record : ValueRecord) (tag : ConstantTag) : Machine :=
  { machine.call (.constant record tag) (.content record tag) with
    inProgress := machine.inProgress.insert record.key }

end Machine

/-- A constant without an expression, from the numbers of its elements. -/
def assembleConstant (record : ValueRecord) (fields : ConstantFields) (ids : List ValueId) :
    ConstantTag → Except LinkError Constant
  | .aggregateZero => .ok .aggregateZero
  | .pointerNull => .ok .pointerNull
  | .undef => .ok .undef
  | .int => (present record fields.intValue).map .int
  | .float => (present record fields.floatValue).map .float
  | .string => (present record fields.stringValue).map .string
  | .array => .ok (.array ids)
  | .struct => .ok (.struct ids)
  | .vector => .ok (.vector ids)
  | .blockAddress => linkBlockAddress record ids
  | .expr | .inlineAsm => .error (unexpectedPayload record)

def assemblyContent (record : ValueRecord) : Except LinkError Content :=
  match record.payload with
  | .inlineAsm fields => .ok (.inlineAsm fields)
  | _ => .error (unexpectedPayload record)

namespace Machine

/-- A call starts. It returns at once, or it waits for another call. -/
def start (source : Source) (machine : Machine) : Call → Machine
  | .operand key =>
    match machine.state.ids[key]? with
    | some id => machine.answer (.operand key) (.ok id)
    | none =>
      match source.records[key]? with
      | none => machine.answer (.operand key) (.error (.unknownValue key))
      | some record =>
        match record.tag with
        | .constant tag => machine.call (.operand key) (.constant record tag)
        | tag =>
          if tag.isGlobal then machine.answer (.operand key)
            (.error (.directGlobalReference key tag))
          else machine.answer (.operand key) (.error (.knotTyingFailure key))
  | .operands [] => machine.answer (.operands []) (.ok [])
  | .operands (key :: rest) => machine.call (.first key rest) (.operand key)
  | .constant record tag =>
    if record.key ∈ machine.inProgress then
      machine.answer (.constant record tag) (.error (.constantCycle record.key))
    else machine.enclose record tag
  | .content record tag =>
    if tag = .inlineAsm then machine.answer (.content record tag) (assemblyContent record)
    else
      match constantFields record with
      | .error error => machine.answer (.content record tag) (.error error)
      | .ok fields =>
        match tag, fields.expr with
        | .expr, some expr => machine.call (.expression record)
          (.instruction expr.opcode expr.instruction)
        | tag, _ => machine.call (.elements record tag fields) (.operands (fields.references tag))
  | .instruction tag fields => machine.call (.instruction tag fields) (.operands fields.operands)

/-- The content of a constant has been linked, or not. The constant is not in progress any more. -/
def close (source : Source) (machine : Machine) (record : ValueRecord) (tag : ConstantTag)
    (content : Except LinkError Content) : Machine :=
  let closed := { machine with inProgress := machine.inProgress.erase record.key }
  match content with
  | .error error => closed.answer (.constant record tag) (.error error)
  | .ok content =>
    match (settle source record content).run machine.state with
    | .error error => closed.answer (.constant record tag) (.error error)
    | .ok (id, after) => { closed with state := after }.answer (.constant record tag) (.ok id)

/-- A call goes on with what it has waited for. -/
def resume (source : Source) (machine : Machine) (frame : Frame) (call : Call)
    (answer : Except LinkError call.Answer) : Option Machine :=
  match frame, call, answer with
  | .operand key, .constant _ _, answer => some (machine.answer (.operand key) answer)
  | .first key rest, .operand _,
    .error error => some (machine.answer (.operands (key :: rest)) (.error error))
  | .first key rest, .operand _,
    .ok id => some (machine.call (.others key id rest) (.operands rest))
  | .others key id rest, .operands _, answer =>
    some (machine.answer (.operands (key :: rest)) (answer.map (id :: ·)))
  | .constant record tag, .content _ _, answer => some (machine.close source record tag answer)
  | .elements record tag fields, .operands _, answer =>
    some (machine.answer (.content record tag)
      do (assembleConstant record fields (← answer) tag).map .constant)
  | .expression record, .instruction _ _, answer =>
    some (machine.answer (.content record .expr)
      (answer.map fun instruction => .constant (.expr instruction)))
  | .instruction tag fields, .operands _, answer =>
    some (machine.answer (.instruction tag fields) do Instruction.decode tag fields (← answer))
  | _, _, _ => none

/-- Nothing is left to do when a call returns for which no other call waits. -/
def step (source : Source) (machine : Machine) : Option Machine :=
  match machine.control with
  | .calling call => some (machine.start source call)
  | .returning call answer =>
    match machine.frames with
    | [] => none
    | frame :: frames => { machine with frames }.resume source frame call answer

/-- One step after the other. -/
abbrev Reaches (source : Source) : Machine → Machine → Prop :=
  Relation.ReflTransGen fun earlier later => earlier.step source = some later

end Machine

/-- The constants whose content is asked for, from the innermost one. -/
def path : List Frame → List Key
  | [] => []
  | .constant record _ :: frames => record.key :: path frames
  | _ :: frames => path frames

/-- The set holds the constants on the path and no others. -/
def Machine.Guarded (machine : Machine) : Prop :=
  ∀ key, key ∈ machine.inProgress ↔ key ∈ path machine.frames

/-! ### What calls stand for -/

/-- The part of linking that a call stands for, inside of these constants. -/
def Call.link (source : Source) (enclosing : List Key) : (call : Call) → LinkM call.Answer
  | .operand key => operandWithin source enclosing key
  | .operands keys => keys.mapM (operandWithin source enclosing)
  | .constant record tag =>
    if record.key ∈ enclosing then throw (.constantCycle record.key)
    else do
      settle source record
        (← linkConstantContent (operandWithin source (record.key :: enclosing)) record tag)
  | .content record tag => linkConstantContent (operandWithin source enclosing) record tag
  | .instruction tag fields => linkInstruction (operandWithin source enclosing) tag fields

variable {source : Source} {enclosing : List Key} {machine : Machine} {α β : Type}

/-- Linking has this outcome. What it did before it failed is not told. -/
def Gives : Except LinkError (α × State) → Except LinkError α → State → Prop
  | .ok (result, after), answer, state => answer = .ok result ∧ state = after
  | .error error, answer, _ => answer = .error error

/-- The call comes to its end with this outcome. No frame is left of it, and the same constants are
in progress. -/
def Completes (source : Source) (machine : Machine) (call : Call)
    (outcome : Except LinkError (call.Answer × State)) : Prop :=
  ∃ answer after, Machine.Reaches source { machine with control := .calling call }
    { machine with control := .returning call answer, state := after } ∧ Gives outcome answer after

private theorem gives_lift (computation : Except LinkError α) (state : State) :
    Gives ((liftM computation : LinkM α).run state) computation state := by
  cases computation with
  | error error => rfl
  | ok result => exact ⟨rfl, rfl⟩

private theorem Gives.lift {action : LinkM α} {next : α → Except LinkError β} {state after : State}
    {answer : Except LinkError α} (gives : Gives (action.run state) answer after) :
    Gives ((do liftM (next (← action)) : LinkM β).run state) (answer >>= next) after := by
  rw [StateT.run_bind]
  cases outcome : action.run state with
  | error error =>
    rw [outcome] at gives
    obtain rfl : answer = .error error := gives
    rfl
  | ok pair =>
    rw [outcome] at gives
    obtain ⟨rfl, rfl⟩ := gives
    exact gives_lift (next pair.1) pair.2

private theorem Gives.map {action : LinkM α} {change : α → β} {state after : State}
    {answer : Except LinkError α} (gives : Gives (action.run state) answer after) :
    Gives ((do return change (← action) : LinkM β).run state) (answer.map change) after := by
  have lifted : Gives _ (answer >>= fun result => .ok (change result)) after := gives.lift
  cases answer with
  | error error => exact lifted
  | ok result => exact lifted

private theorem completes_of_answer {call : Call} {answer : Except LinkError call.Answer}
    {outcome : Except LinkError (call.Answer × State)}
    (starts : Machine.start source { machine with control := .calling call } call =
      { machine with control := .returning call answer })
    (gives : Gives outcome answer machine.state) : Completes source machine call outcome :=
  ⟨answer, machine.state, .single (congrArg some starts), gives⟩

/-- A call that waits for another one and then returns. -/
theorem completes_of_call {call inner : Call} {frame : Frame}
    {inner_outcome : Except LinkError (inner.Answer × State)}
    {outcome : Except LinkError (call.Answer × State)}
    (starts : Machine.start source { machine with control := .calling call } call =
      { machine with control := .calling inner, frames := frame :: machine.frames })
    (completes : Completes source { machine with frames := frame :: machine.frames } inner
      inner_outcome)
    (returns : ∀ answer after, Gives inner_outcome answer after → ∃ last,
      Machine.resume source { machine with control := .returning inner answer, state := after }
          frame inner answer =
        some { machine with control := .returning call last, state := after } ∧
      Gives outcome last after) :
    Completes source machine call outcome := by
  obtain ⟨answer, after, reaches, gives⟩ := completes
  obtain ⟨last, resumes, finally_gives⟩ := returns answer after gives
  exact ⟨last, after, .head (congrArg some starts) (reaches.tail resumes), finally_gives⟩

/-! ### Calls inside of given constants -/

/-- Wherever these constants are in progress, linking this operand comes to its end. -/
def Answers (source : Source) (enclosing : List Key) (key : Key) : Prop :=
  ∀ machine : Machine, path machine.frames = enclosing → machine.Guarded →
    Completes source machine (.operand key) ((operandWithin source enclosing key).run machine.state)

/-- All constants but expressions are linked from the numbers of their elements. -/
theorem linkConstant_eq (operand : Key → LinkM ValueId) (record : ValueRecord)
    (fields : ConstantFields) {tag : ConstantTag}
    (no_expression : tag = .expr → fields.expr = none) :
    linkConstant operand record fields tag = (do
      liftM (assembleConstant record fields (← (fields.references tag).mapM operand) tag)) := by
  have literal : ∀ {γ : Type} (given : Option γ) (make : γ → Constant),
      (do return make (← liftM (present record given)) : LinkM Constant) =
        liftM ((present record given).map make) := by
    intro γ given make
    cases given <;> rfl
  cases tag with
  | int | float | string => exact literal _ _
  | expr =>
    -- Without an expression there is nothing to link.
    simp only [linkConstant, assembleConstant, ConstantFields.references,
      no_expression rfl, present]
    rfl
  | _ => rfl

private theorem linkConstantContent_assembly (operand : Key → LinkM ValueId)
    (record : ValueRecord) :
    linkConstantContent operand record .inlineAsm = liftM (assemblyContent record) := by
  rw [linkConstantContent, assemblyContent]
  cases record.payload <;> rfl

section

variable {record : ValueRecord} {tag : ConstantTag} {fields : ConstantFields}
  (assembly : tag ≠ .inlineAsm) (read : constantFields record = .ok fields)
include assembly read

private theorem linkConstantContent_elements (operand : Key → LinkM ValueId)
    (no_expression : tag = .expr → fields.expr = none) :
    linkConstantContent operand record tag = (do
      liftM ((assembleConstant record fields (← (fields.references tag).mapM operand) tag).map
        Content.constant)) := by
  rw [linkConstantContent_eq operand record assembly, read]
  show (do return Content.constant (← linkConstant operand record fields tag) : LinkM Content) = _
  rw [linkConstant_eq operand record fields no_expression, bind_assoc]
  congr 1
  funext ids
  cases assembleConstant record fields ids tag <;> rfl

private theorem linkConstantContent_expression (operand : Key → LinkM ValueId)
    {expr : Table.ExprFields} (described : fields.expr = some expr) (tagged : tag = .expr) :
    linkConstantContent operand record tag = (do
      return .constant (.expr (← linkInstruction operand expr.opcode expr.instruction))) := by
  rw [linkConstantContent_eq operand record assembly, read, tagged]
  show (do return Content.constant (← linkConstant operand record fields .expr) : LinkM Content) = _
  simp only [linkConstant, described, present, bind_assoc, pure_bind]
  rfl

end

section

variable (each : ∀ key, Answers source enclosing key)
include each

private theorem completes_operands (keys : List Key) (machine : Machine)
    (enclosed : path machine.frames = enclosing) (guarded : machine.Guarded) :
    Completes source machine (.operands keys)
      ((keys.mapM (operandWithin source enclosing)).run machine.state) := by
  induction keys generalizing machine with
  | nil => exact completes_of_answer rfl ⟨rfl, rfl⟩
  | cons key rest ih =>
    -- The first key is called for under a frame that holds the others back.
    obtain ⟨answer, between, reaches, gives⟩ :=
      each key { machine with frames := .first key rest :: machine.frames } enclosed guarded
    rw [List.mapM_cons, StateT.run_bind]
    cases outcome : (operandWithin source enclosing key).run machine.state with
    | error error =>
      rw [outcome] at gives
      obtain rfl : answer = .error error := gives
      exact ⟨.error error, between, .head rfl (reaches.tail rfl), rfl⟩
    | ok pair =>
      rw [outcome] at gives
      obtain ⟨rfl, rfl⟩ := gives
      obtain ⟨others, after, continues, gives_others⟩ :=
        ih { machine with frames := .others key pair.1 rest :: machine.frames, state := pair.2 }
          enclosed guarded
      refine ⟨others.map (pair.1 :: ·), after,
        .head rfl ((reaches.tail rfl).trans (continues.tail rfl)), ?_⟩
      exact gives_others.map

private theorem completes_instruction (tag : Tag) (fields : InstructionFields) (machine : Machine)
    (enclosed : path machine.frames = enclosing) (guarded : machine.Guarded) :
    Completes source machine (.instruction tag fields)
      ((linkInstruction (operandWithin source enclosing) tag fields).run machine.state) := by
  have operands := completes_operands each fields.operands
    { machine with frames := .instruction tag fields :: machine.frames } enclosed guarded
  apply completes_of_call rfl operands
  intro answer after gives
  exact ⟨_, rfl, gives.lift⟩

/-- An expression is an instruction, and every other constant a list of elements. -/
theorem completes_content (record : ValueRecord) (tag : ConstantTag) (machine : Machine)
    (enclosed : path machine.frames = enclosing) (guarded : machine.Guarded) :
    Completes source machine (.content record tag)
      ((linkConstantContent (operandWithin source enclosing) record tag).run machine.state) := by
  by_cases assembly : tag = .inlineAsm
  · subst assembly
    rw [linkConstantContent_assembly]
    exact completes_of_answer rfl (gives_lift _ _)
  cases read : constantFields record with
  | error error =>
    apply completes_of_answer
    · simp only [Machine.start, if_neg assembly, read]
      rfl
    · rw [linkConstantContent_eq _ record assembly, read]
      rfl
  | ok fields =>
    -- An expression without an instruction has no operands, so it goes the way of the elements.
    by_cases expression : tag = .expr ∧ ∃ expr, fields.expr = some expr
    · obtain ⟨rfl, expr, described⟩ := expression
      rw [linkConstantContent_expression assembly read _ described rfl]
      have instruction := completes_instruction each expr.opcode expr.instruction
        { machine with frames := .expression record :: machine.frames } enclosed guarded
      apply completes_of_call _ instruction
      · exact fun answer after gives => ⟨_, rfl, gives.map⟩
      · simp only [Machine.start, if_neg assembly, read, described]
        rfl
    · have no_expression : tag = .expr → fields.expr = none := by
        intro tagged
        rw [Option.eq_none_iff_forall_ne_some]
        exact fun expr described => expression ⟨tagged, expr, described⟩
      rw [linkConstantContent_elements assembly read _ no_expression]
      have elements := completes_operands each (fields.references tag)
        { machine with frames := .elements record tag fields :: machine.frames } enclosed guarded
      apply completes_of_call _ elements
      · exact fun answer after gives => ⟨_, rfl, gives.lift⟩
      · simp only [Machine.start, if_neg assembly, read]
        split
        next described => cases (no_expression rfl).symm.trans described
        next => rfl

end

/-! ### Constants in progress -/

theorem Machine.Guarded.enclose (guarded : machine.Guarded) (record : ValueRecord)
    (tag : ConstantTag) :
    (machine.enclose record tag).Guarded := by
  intro key
  show key ∈ machine.inProgress.insert record.key ↔ key ∈ record.key :: path machine.frames
  rw [Std.ExtTreeSet.mem_insert, guarded, List.mem_cons, Std.LawfulEqCmp.compare_eq_iff_eq, eq_comm]

private theorem erase_insert_of_notMem {keys : Std.ExtTreeSet Key} {key : Key}
    (absent : key ∉ keys) :
    (keys.insert key).erase key = keys := by
  apply Std.ExtTreeSet.ext_mem
  intro other
  rw [Std.ExtTreeSet.mem_erase, Std.ExtTreeSet.mem_insert, ne_eq, Std.LawfulEqCmp.compare_eq_iff_eq]
  constructor
  · rintro ⟨different, same | member⟩
    · exact absurd same different
    · exact member
  · intro member
    exact ⟨fun same => absent (same ▸ member), Or.inr member⟩

/-- However the content came out, the constant is taken out of the set. -/
theorem gives_close {action : LinkM Content} {state : State} {answer : Except LinkError Content}
    (record : ValueRecord) (tag : ConstantTag)
    (gives : Gives (action.run state) answer machine.state) :
    ∃ last after, machine.close source record tag answer =
        { machine with
          control := .returning (.constant record tag) last
          inProgress := machine.inProgress.erase record.key, state := after } ∧
      Gives ((do settle source record (← action)).run state) last after := by
  rw [StateT.run_bind]
  cases outcome : action.run state with
  | error error =>
    rw [outcome] at gives
    obtain rfl : answer = .error error := gives
    exact ⟨.error error, machine.state, rfl, rfl⟩
  | ok pair =>
    rw [outcome] at gives
    obtain ⟨rfl, same⟩ := gives
    show ∃ last after, _ ∧ Gives ((settle source record pair.1).run pair.2) last after
    simp only [Machine.close, same]
    cases (settle source record pair.1).run pair.2 with
    | error error => exact ⟨.error error, pair.2, rfl, rfl⟩
    | ok settled => exact ⟨.ok settled.1, settled.2, rfl, rfl, rfl⟩

private theorem completes_constant {record : ValueRecord} (tag : ConstantTag)
    (each : record.key ∉ enclosing → ∀ key, Answers source (record.key :: enclosing) key)
    (machine : Machine) (enclosed : path machine.frames = enclosing) (guarded : machine.Guarded) :
    Completes source machine (.constant record tag)
      (((Call.constant record tag).link source enclosing).run machine.state) := by
  have in_progress : record.key ∈ machine.inProgress ↔ record.key ∈ enclosing := by
    rw [guarded, enclosed]
  rw [Call.link]
  split
  next cycle =>
    apply completes_of_answer
    · simp only [Machine.start, if_pos (in_progress.mpr cycle)]
      rfl
    · rfl
  next fresh =>
    have absent : record.key ∉ machine.inProgress := in_progress.not.mpr fresh
    have starts : Machine.step source { machine with control := .calling (.constant record tag) } =
        some (machine.enclose record tag) := by
      simp only [Machine.step, Machine.start, if_neg absent]
      rfl
    obtain ⟨answer, between, reaches, gives⟩ := completes_content (each fresh) record tag
      (machine.enclose record tag) (congrArg (record.key :: ·) enclosed)
        (guarded.enclose record tag)
    obtain ⟨last, after, closes, finally_gives⟩ := @gives_close source
      { machine with
        control := .returning (.content record tag) answer
        inProgress := machine.inProgress.insert record.key, state := between } _ _ _
          record tag gives
    -- What was inserted is erased again.
    simp only [erase_insert_of_notMem absent] at closes
    exact ⟨last, after, .head starts (reaches.tail (congrArg some closes)), finally_gives⟩

/-! ### All calls -/

/-- By induction on the constants around the key, as linking itself goes. -/
theorem answers_operandWithin (keyed : source.Keyed) (enclosing : List Key) (key : Key) :
    Answers source enclosing key := by
  induction enclosing, key using operandWithin.induct source with
  | case1 enclosing key ih =>
    intro machine enclosed guarded
    rw [operandWithin, StateT.run_bind, StateT.run_get, pure_bind]
    split
    next id numbered =>
      apply completes_of_answer
      · simp only [Machine.start, numbered]
        rfl
      · exact ⟨rfl, rfl⟩
    next unknown =>
      split
      next missing =>
        apply completes_of_answer
        · simp only [Machine.start, unknown, missing]
          rfl
        · rfl
      next record found =>
        split
        next tag tagged =>
          -- A record stands under its own key, so the machine calls for this very constant.
          have same_key : record.key = key := keyed key record found
          subst same_key
          show Completes source machine (.operand record.key)
            (((Call.constant record tag).link source enclosing).run machine.state)
          have constant := completes_constant tag (fun fresh inner => ih record found fresh inner)
            { machine with frames := .operand record.key :: machine.frames } enclosed guarded
          apply completes_of_call _ constant
          · exact fun answer after gives => ⟨answer, rfl, gives⟩
          · simp only [Machine.start, unknown, found, tagged]
            rfl
        next other_tag =>
          split
          next is_global =>
            apply completes_of_answer
            · simp only [Machine.start, unknown, found, if_pos is_global]
              rfl
            · rfl
          next not_global =>
            apply completes_of_answer
            · simp only [Machine.start, unknown, found, if_neg not_global]
              rfl
            · rfl

/-- Every call comes to its end and gives what linking gives. -/
theorem completes_link (keyed : source.Keyed) (call : Call) (machine : Machine)
    (guarded : machine.Guarded) :
    Completes source machine call ((call.link source (path machine.frames)).run machine.state) := by
  have each := answers_operandWithin keyed (path machine.frames)
  cases call with
  | operand key => exact each key machine rfl guarded
  | operands keys => exact completes_operands each keys machine rfl guarded
  | constant record tag =>
    exact completes_constant tag (fun _ => answers_operandWithin keyed _) machine rfl guarded
  | content record tag => exact completes_content each record tag machine rfl guarded
  | instruction tag fields => exact completes_instruction each tag fields machine rfl guarded

end FlowIR.Link
