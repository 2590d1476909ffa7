import FlowIR.Instruction.Decode
import FlowIR.Link.State
import FlowIR.OpenWeight

/-!
# Linking operands

A constant gets its number when it is first referred to, after the constants it refers to itself. A
constant that leads back to itself would never get one. It is an error, and this is why linking
ends: the constants around the current one are all different records of the table.
-/
namespace FlowIR.Link

open Table (Key ValueRecord InstructionFields ConstantFields)

/-! ### Contents, given how operands are linked -/

def linkInstruction (operand : Key → LinkM ValueId) (tag : Tag) (fields : InstructionFields) :
    LinkM Instruction := do
  let operands ← fields.operands.mapM operand
  Instruction.decode tag fields operands

def constantFields (record : ValueRecord) : Except LinkError ConstantFields :=
  match record.payload with
  | .constant fields => .ok fields
  | .none => .ok {}
  | _ => .error (unexpectedPayload record)

/-- What the record of a constant has to say. -/
def present {α : Type} (record : ValueRecord) : Option α → Except LinkError α
  | some value => .ok value
  | none => .error (unexpectedPayload record)

def linkBlockAddress (record : ValueRecord) : List ValueId → Except LinkError Constant
  | [function, block] => .ok (.blockAddress function block)
  | operands => .error (.invalidArity record.tag operands.length)

def linkConstant (operand : Key → LinkM ValueId) (record : ValueRecord) (fields : ConstantFields) :
    ConstantTag → LinkM Constant
  | .aggregateZero => return .aggregateZero
  | .pointerNull => return .pointerNull
  | .undef => return .undef
  | .int => return .int (← present record fields.intValue)
  | .float => return .float (← present record fields.floatValue)
  | .string => return .string (← present record fields.stringValue)
  | .array => return .array (← fields.operands.mapM operand)
  | .struct => return .struct (← fields.operands.mapM operand)
  | .vector => return .vector (← fields.operands.mapM operand)
  | .blockAddress => do linkBlockAddress record (← fields.operands.mapM operand)
  | .expr => do
    let expr ← present record fields.expr
    return .expr (← linkInstruction operand expr.opcode expr.instruction)
  | .inlineAsm => throw (unexpectedPayload record)

def linkConstantContent (operand : Key → LinkM ValueId) (record : ValueRecord) :
    ConstantTag → LinkM Content
  | .inlineAsm =>
    match record.payload with
    | .inlineAsm fields => return .inlineAsm fields
    | _ => throw (unexpectedPayload record)
  | tag => do return .constant (← linkConstant operand record (← constantFields record) tag)

/-! ### Operands -/

/-- The records that no constant around the current one comes from. -/
def openRecords (source : Source) (enclosing : List Key) : Nat :=
  openWeight (fun _ => 1) (· ∉ enclosing) source.records.keys

private theorem openRecords_cons_lt (source : Source) (enclosing : List Key) (key : Key)
    (record : ValueRecord) (found : source.records[key]? = some record)
    (fresh : key ∉ enclosing) :
    openRecords source (key :: enclosing) < openRecords source enclosing := by
  have listed : key ∈ source.records.keys := by
    rw [Std.ExtTreeMap.mem_keys, Std.ExtTreeMap.mem_iff_isSome_getElem?, found]
    rfl
  have step := openWeight_add_le (fun _ : Key => 1) (· ∉ enclosing) (· ∉ key :: enclosing)
    source.records.keys (by simp_all) key listed (by simpa using fresh) (by simp)
  simp only [openRecords]
  omega

/-- Gives its number and its content to a constant. -/
def settle (source : Source) (record : ValueRecord) (content : Content) : LinkM ValueId := do
  let id ← allocate source record
  define id content
  return id

/-- The number of an operand inside of the given constants. -/
def operandWithin (source : Source) (enclosing : List Key) (key : Key) : LinkM ValueId := do
  match (← get).ids[key]? with
  | some id => return id
  | none =>
    match _found : source.records[key]? with
    | none => throw (.unknownValue key)
    | some record =>
      match record.tag with
      | .constant tag =>
        if _fresh : key ∈ enclosing then throw (.constantCycle key)
        else
          let content ← linkConstantContent
            (fun inner => operandWithin source (key :: enclosing) inner) record tag
          settle source record content
      | tag =>
        if tag.isGlobal then throw (.directGlobalReference key tag)
        else throw (.knotTyingFailure key)
termination_by openRecords source enclosing
decreasing_by exact openRecords_cons_lt source enclosing key record _found _fresh

def operand (source : Source) (key : Key) : LinkM ValueId := operandWithin source [] key

end FlowIR.Link
