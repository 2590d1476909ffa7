import FlowIR.Link.Error

/-!
# Decoding instructions

The opcode decides how many operands there may be and what each of them means.
-/
namespace FlowIR.Instruction

open Table (InstructionFields)

/-- A list of even length, two by two. -/
def pairUp? : List ValueId → Option (List (ValueId × ValueId))
  | [] => some []
  | [_] => none
  | first :: second :: rest => (pairUp? rest).map ((first, second) :: ·)

def callSite (fields : InstructionFields) (callee : ValueId)
    (arguments : List ValueId) : CallSite :=
  { callee, arguments, callingConvention := fields.callingConvention, tailCall := fields.tailCall
    structReturn := fields.structReturn }

/-- The code that stands for a missing predicate in an error. -/
def missingCode : UInt32 := 0xFFFFFFFF

def intPredicate (fields : InstructionFields) : Except LinkError IntPredicate :=
  match fields.predicate.bind IntPredicate.ofCode? with
  | some predicate => .ok predicate
  | none => .error (.invalidPredicate .integer (fields.predicate.getD missingCode))

def floatPredicate (fields : InstructionFields) : Except LinkError FloatPredicate :=
  match fields.predicate.bind FloatPredicate.ofCode? with
  | some predicate => .ok predicate
  | none => .error (.invalidPredicate .floatingPoint (fields.predicate.getD missingCode))

/-- The two blocks of an invoke come after its arguments. -/
def decodeInvoke? (fields : InstructionFields) : List ValueId → Option Instruction
  | [] => none
  | callee :: rest =>
    match rest.reverse with
    | unwindBlock :: normalBlock :: arguments =>
      some (invoke (callSite fields callee arguments.reverse) normalBlock unwindBlock)
    | _ => none

def decodeSwitch? : List ValueId → Option Instruction
  | value :: defaultBlock :: cases => (pairUp? cases).map (switch value defaultBlock)
  | _ => none

def decodePhi? : List ValueId → Option Instruction
  | [] => none
  | incoming => (pairUp? incoming).map phi

/-- An instruction from its opcode, its fields and its linked operands. -/
def decodeOpcode (fields : InstructionFields) (opcode : Opcode) (operands : List ValueId) :
    Except LinkError Instruction :=
  let count := operands.length
  let wrongArity := Except.error (LinkError.invalidArity (.instruction opcode) count)
  match opcode, operands with
  | .ret, [] => .ok (ret none)
  | .ret, [value] => .ok (ret (some value))
  | .ret, _ => .error (.tooManyReturnValues count)
  | .br, [target] => .ok (br target)
  | .br, [condition, thenBlock, elseBlock] => .ok (condBr condition thenBlock elseBlock)
  | .br, _ => .error (.malformedBranch count)
  | .switch, operands => ((decodeSwitch? operands).map .ok).getD (.error (.malformedSwitch count))
  | .indirectBr, address :: targets => .ok (indirectBr address targets)
  | .indirectBr, [] => .error (.malformedIndirectBranch count)
  | .invoke, operands => ((decodeInvoke? fields operands).map .ok).getD wrongArity
  | .call, callee :: arguments => .ok (call (callSite fields callee arguments))
  | .unwind, [] => .ok unwind
  | .unreachable, [] => .ok unreachable
  | .icmp, [lhs, rhs] => (intPredicate fields).map (icmp · lhs rhs)
  | .fcmp, [lhs, rhs] => (floatPredicate fields).map (fcmp · lhs rhs)
  | .alloca, [] => .ok (alloca none fields.align)
  | .alloca, [size] => .ok (alloca (some size) fields.align)
  | .load, [address] => .ok (load address fields.isVolatile fields.align)
  | .store, [value, address] =>
    .ok (store value address fields.isVolatile fields.align fields.addrSpace)
  | .getElementPtr, base :: indices => .ok (getElementPtr fields.inBounds base indices)
  | .select, [condition, onTrue, onFalse] => .ok (select condition onTrue onFalse)
  | .vaArg, [list] => .ok (vaArg list)
  | .extractElement, [vector, index] => .ok (extractElement vector index)
  | .insertElement, [vector, element, index] => .ok (insertElement vector element index)
  | .shuffleVector, [lhs, rhs, mask] => .ok (shuffleVector lhs rhs mask)
  | .extractValue, [aggregate] => .ok (extractValue aggregate fields.indices)
  | .insertValue, [aggregate, element] => .ok (insertValue aggregate element fields.indices)
  | .phi, operands => ((decodePhi? operands).map .ok).getD wrongArity
  | .cast op, [value] => .ok (cast op value)
  | .binary op, [lhs, rhs] => .ok (binary op lhs rhs)
  | _, _ => wrongArity

/-- Only tags of instructions have operands that can be decoded. -/
def decode (tag : Tag) (fields : InstructionFields) (operands : List ValueId) :
    Except LinkError Instruction :=
  match tag with
  | .instruction opcode => decodeOpcode fields opcode operands
  | tag => .error (.invalidArity tag operands.length)

/-- Control only goes to blocks of the same function. -/
def checkTargets (blocks : List ValueId) (tag : Tag) (instruction : Instruction) :
    Except LinkError Unit :=
  if instruction.successorBlocks.all (· ∈ blocks) then .ok ()
  else
    let count := instruction.operands.length
    match instruction with
    | switch _ _ _ => .error (.malformedSwitch count)
    | indirectBr _ _ => .error (.malformedIndirectBranch count)
    | br _ => .error (.malformedBranch count)
    | condBr _ _ _ => .error (.malformedBranch count)
    | _ => .error (.invalidArity tag count)

end FlowIR.Instruction
