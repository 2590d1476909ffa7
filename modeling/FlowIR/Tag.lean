/-!
# Tags of table records

A tag says what kind of value a record describes: a part of the module's structure, a constant, or
an instruction.
-/
namespace FlowIR

inductive BinaryOp where
  | add
  | fadd
  | sub
  | fsub
  | mul
  | fmul
  | udiv
  | sdiv
  | fdiv
  | urem
  | srem
  | frem
  | shl
  | lshr
  | ashr
  | and
  | or
  | xor
  deriving DecidableEq, Repr

inductive CastOp where
  | trunc
  | zext
  | sext
  | fpToUi
  | fpToSi
  | uiToFp
  | siToFp
  | fpTrunc
  | fpExt
  | ptrToInt
  | intToPtr
  | bitCast
  deriving DecidableEq, Repr

inductive Opcode where
  | ret
  | br
  | switch
  | indirectBr
  | invoke
  | unwind
  | unreachable
  | binary (op : BinaryOp)
  | alloca
  | load
  | store
  | getElementPtr
  | cast (op : CastOp)
  | icmp
  | fcmp
  | phi
  | call
  | select
  | vaArg
  | extractElement
  | insertElement
  | shuffleVector
  | extractValue
  | insertValue
  deriving DecidableEq, Repr

/-- Constants are linked when they are first referred to. -/
inductive ConstantTag where
  | inlineAsm
  | blockAddress
  | aggregateZero
  | array
  | struct
  | vector
  | string
  | int
  | float
  | pointerNull
  | undef
  | expr
  deriving DecidableEq, Repr

inductive Tag where
  | function
  | globalVariable
  | globalAlias
  | argument
  | basicBlock
  | constant (tag : ConstantTag)
  | instruction (opcode : Opcode)
  deriving DecidableEq, Repr

namespace BinaryOp

def all : List BinaryOp :=
  [add, fadd, sub, fsub, mul, fmul, udiv, sdiv, fdiv, urem, srem, frem, shl, lshr,
   ashr, and, or, xor]

/-- The name in a table. -/
def name : BinaryOp → String
  | add => "Add"
  | fadd => "FAdd"
  | sub => "Sub"
  | fsub => "FSub"
  | mul => "Mul"
  | fmul => "FMul"
  | udiv => "UDiv"
  | sdiv => "SDiv"
  | fdiv => "FDiv"
  | urem => "URem"
  | srem => "SRem"
  | frem => "FRem"
  | shl => "Shl"
  | lshr => "LShr"
  | ashr => "AShr"
  | and => "And"
  | or => "Or"
  | xor => "Xor"

end BinaryOp

namespace CastOp

def all : List CastOp :=
  [trunc, zext, sext, fpToUi, fpToSi, uiToFp, siToFp, fpTrunc, fpExt, ptrToInt, intToPtr, bitCast]

def name : CastOp → String
  | trunc => "Trunc"
  | zext => "ZExt"
  | sext => "SExt"
  | fpToUi => "FPToUI"
  | fpToSi => "FPToSI"
  | uiToFp => "UIToFP"
  | siToFp => "SIToFP"
  | fpTrunc => "FPTrunc"
  | fpExt => "FPExt"
  | ptrToInt => "PtrToInt"
  | intToPtr => "IntToPtr"
  | bitCast => "BitCast"

end CastOp

namespace Opcode

def all : List Opcode :=
  [ret, br, switch, indirectBr, invoke, unwind, unreachable, alloca, load, store,
   getElementPtr, icmp,
   fcmp, phi, call, select, vaArg, extractElement, insertElement, shuffleVector, extractValue,
   insertValue] ++ BinaryOp.all.map binary ++ CastOp.all.map cast

def name : Opcode → String
  | ret => "Ret"
  | br => "Br"
  | switch => "Switch"
  | indirectBr => "IndirectBr"
  | invoke => "Invoke"
  | unwind => "Unwind"
  | unreachable => "Unreachable"
  | binary op => op.name
  | alloca => "Alloca"
  | load => "Load"
  | store => "Store"
  | getElementPtr => "GetElementPtr"
  | cast op => op.name
  | icmp => "ICmp"
  | fcmp => "FCmp"
  | phi => "Phi"
  | call => "Call"
  | select => "Select"
  | vaArg => "VaArg"
  | extractElement => "ExtractElement"
  | insertElement => "InsertElement"
  | shuffleVector => "ShuffleVector"
  | extractValue => "ExtractValue"
  | insertValue => "InsertValue"

/-- The name in the text of an instruction. -/
def mnemonic : Opcode → String
  | vaArg => "va_arg"
  | opcode => opcode.name.toLower

end Opcode

namespace ConstantTag

def all : List ConstantTag :=
  [inlineAsm, blockAddress, aggregateZero, array, struct, vector, string, int, float,
   pointerNull, undef, expr]

def name : ConstantTag → String
  | inlineAsm => "InlineAsm"
  | blockAddress => "BlockAddress"
  | aggregateZero => "ConstantAggregateZero"
  | array => "ConstantArray"
  | struct => "ConstantStruct"
  | vector => "ConstantVector"
  | string => "ConstantString"
  | int => "ConstantInt"
  | float => "ConstantFP"
  | pointerNull => "ConstantPointerNull"
  | undef => "UndefValue"
  | expr => "ConstantExpr"

end ConstantTag

namespace Tag

def all : List Tag :=
  [function, globalVariable, globalAlias, argument, basicBlock] ++ ConstantTag.all.map constant
    ++ Opcode.all.map instruction

def name : Tag → String
  | function => "Function"
  | globalVariable => "GlobalVariable"
  | globalAlias => "Alias"
  | argument => "Argument"
  | basicBlock => "BasicBlock"
  | constant tag => tag.name
  | instruction opcode => opcode.name

def ofName? (name : String) : Option Tag := all.find? (·.name = name)

def isConstant : Tag → Bool
  | constant _ => true
  | _ => false

/-- Globals are only reached through the lists of the module. -/
def isGlobal : Tag → Bool
  | function | globalVariable | globalAlias => true
  | _ => false

def isInstruction : Tag → Bool
  | instruction _ => true
  | _ => false

end Tag

end FlowIR
