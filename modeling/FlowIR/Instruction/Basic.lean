import FlowIR.Attribute
import FlowIR.Tag

/-!
# Linked instructions

Operands refer to the values of a module by number.
-/
namespace FlowIR

abbrev ValueId := Nat

inductive IntPredicate where
  | eq
  | ne
  | ugt
  | uge
  | ult
  | ule
  | sgt
  | sge
  | slt
  | sle
  deriving DecidableEq, Repr

namespace IntPredicate

def all : List IntPredicate := [eq, ne, ugt, uge, ult, ule, sgt, sge, slt, sle]

def name : IntPredicate → String
  | eq => "Eq"
  | ne => "Ne"
  | ugt => "Ugt"
  | uge => "Uge"
  | ult => "Ult"
  | ule => "Ule"
  | sgt => "Sgt"
  | sge => "Sge"
  | slt => "Slt"
  | sle => "Sle"

/-- The codes of integer predicates start at 32. -/
def ofCode? (code : UInt32) : Option IntPredicate :=
  if code.toNat < 32 then none else all[code.toNat - 32]?

end IntPredicate

inductive FloatPredicate where
  | alwaysFalse
  | oeq
  | ogt
  | oge
  | olt
  | ole
  | one
  | ord
  | uno
  | ueq
  | ugt
  | uge
  | ult
  | ule
  | une
  | alwaysTrue
  deriving DecidableEq, Repr

namespace FloatPredicate

def all : List FloatPredicate :=
  [alwaysFalse, oeq, ogt, oge, olt, ole, one, ord, uno, ueq, ugt, uge, ult, ule, une, alwaysTrue]

def name : FloatPredicate → String
  | alwaysFalse => "False"
  | oeq => "Oeq"
  | ogt => "Ogt"
  | oge => "Oge"
  | olt => "Olt"
  | ole => "Ole"
  | one => "One"
  | ord => "Ord"
  | uno => "Uno"
  | ueq => "Ueq"
  | ugt => "Ugt"
  | uge => "Uge"
  | ult => "Ult"
  | ule => "Ule"
  | une => "Une"
  | alwaysTrue => "True"

def ofCode? (code : UInt32) : Option FloatPredicate := all[code.toNat]?

end FloatPredicate

structure CallSite where
  callee : ValueId
  arguments : List ValueId
  callingConvention : CallingConvention
  tailCall : Bool
  structReturn : Bool
  deriving DecidableEq, Repr

inductive Instruction where
  | ret (value : Option ValueId)
  | br (target : ValueId)
  | condBr (condition thenBlock elseBlock : ValueId)
  /-- Cases are pairs of a value and a block. -/
  | switch (value defaultBlock : ValueId) (cases : List (ValueId × ValueId))
  | indirectBr (address : ValueId) (targets : List ValueId)
  | invoke (site : CallSite) (normalBlock unwindBlock : ValueId)
  | unwind
  | unreachable
  | binary (op : BinaryOp) (lhs rhs : ValueId)
  | icmp (predicate : IntPredicate) (lhs rhs : ValueId)
  | fcmp (predicate : FloatPredicate) (lhs rhs : ValueId)
  | cast (op : CastOp) (value : ValueId)
  | alloca (count : Option ValueId) (align : UInt32)
  | load (address : ValueId) (isVolatile : Bool) (align : UInt32)
  | store (value address : ValueId) (isVolatile : Bool) (align addrSpace : UInt32)
  | getElementPtr (inBounds : Bool) (base : ValueId) (indices : List ValueId)
  | select (condition onTrue onFalse : ValueId)
  | vaArg (list : ValueId)
  | extractElement (vector index : ValueId)
  | insertElement (vector element index : ValueId)
  | shuffleVector (lhs rhs mask : ValueId)
  | extractValue (aggregate : ValueId) (indices : List UInt32)
  | insertValue (aggregate element : ValueId) (indices : List UInt32)
  /-- Pairs of a value and the block from which it flows in. -/
  | phi (incoming : List (ValueId × ValueId))
  | call (site : CallSite)
  deriving DecidableEq, Repr

namespace Instruction

def opcode : Instruction → Opcode
  | ret _ => .ret
  | br _ => .br
  | condBr _ _ _ => .br
  | switch _ _ _ => .switch
  | indirectBr _ _ => .indirectBr
  | invoke _ _ _ => .invoke
  | unwind => .unwind
  | unreachable => .unreachable
  | binary op _ _ => .binary op
  | icmp _ _ _ => .icmp
  | fcmp _ _ _ => .fcmp
  | cast op _ => .cast op
  | alloca _ _ => .alloca
  | load _ _ _ => .load
  | store _ _ _ _ _ => .store
  | getElementPtr _ _ _ => .getElementPtr
  | select _ _ _ => .select
  | vaArg _ => .vaArg
  | extractElement _ _ => .extractElement
  | insertElement _ _ _ => .insertElement
  | shuffleVector _ _ _ => .shuffleVector
  | extractValue _ _ => .extractValue
  | insertValue _ _ _ => .insertValue
  | phi _ => .phi
  | call _ => .call

def isTerminator : Instruction → Bool
  | ret _ | br _ | condBr _ _ _ | switch _ _ _ | indirectBr _ _ | invoke _ _ _ | unwind
  | unreachable => true
  | _ => false

/-- The blocks to which control may go from here. -/
def successorBlocks : Instruction → List ValueId
  | br target => [target]
  | condBr _ thenBlock elseBlock => [thenBlock, elseBlock]
  | switch _ defaultBlock cases => defaultBlock :: cases.map Prod.snd
  | indirectBr _ targets => targets
  | invoke _ normalBlock unwindBlock => [normalBlock, unwindBlock]
  | _ => []

def flattenPairs (pairs : List (ValueId × ValueId)) : List ValueId :=
  pairs.flatMap fun (first, second) => [first, second]

/-- All values that the instruction refers to, in the order of its operands. -/
def operands : Instruction → List ValueId
  | ret value => value.toList
  | br target => [target]
  | condBr condition thenBlock elseBlock => [condition, thenBlock, elseBlock]
  | switch value defaultBlock cases => value :: defaultBlock :: flattenPairs cases
  | indirectBr address targets => address :: targets
  | invoke site normalBlock unwindBlock =>
    site.callee :: site.arguments ++ [normalBlock, unwindBlock]
  | unwind => []
  | unreachable => []
  | binary _ lhs rhs => [lhs, rhs]
  | icmp _ lhs rhs => [lhs, rhs]
  | fcmp _ lhs rhs => [lhs, rhs]
  | cast _ value => [value]
  | alloca count _ => count.toList
  | load address _ _ => [address]
  | store value address _ _ _ => [value, address]
  | getElementPtr _ base indices => base :: indices
  | select condition onTrue onFalse => [condition, onTrue, onFalse]
  | vaArg list => [list]
  | extractElement vector index => [vector, index]
  | insertElement vector element index => [vector, element, index]
  | shuffleVector lhs rhs mask => [lhs, rhs, mask]
  | extractValue aggregate _ => [aggregate]
  | insertValue aggregate element _ => [aggregate, element]
  | phi incoming => flattenPairs incoming
  | call site => site.callee :: site.arguments

end Instruction

end FlowIR
