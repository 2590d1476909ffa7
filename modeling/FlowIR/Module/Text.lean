import FlowIR.Double.Shortest
import FlowIR.Module.Basic

/-!
# Texts of values

Functions, arguments and the like are written by name, constants are written out. A text is missing
if it would have to name something that is not a value of the module.
-/
namespace FlowIR

/-- Numbers from 1e-4 up to 1e16 are written positionally, and only negative exponents have a
sign. -/
def constantLayout : Double.Layout :=
  { leastPoint := -3, greatestPoint := 16, positiveExponent := .bare, tie := .up }

/-- A number as it is written in constants. What is neither finite nor infinite is not a number. -/
def Double.constantText (d : Double) : String :=
  if d.isFinite then (d.numeral constantLayout).text
  else if d.isInfinite then if d.negative then "-inf" else "inf"
  else "NaN"

namespace Constant

/-- Lower case hexadecimal digits without leading zeros. -/
def hexText (n : Nat) : String := String.ofList (Nat.toDigits 16 n)

/-- Everything but the printable characters of ASCII is written as an escape. -/
def escapeChar (c : Char) : String :=
  if c = '\t' then "\\t"
  else if c = '\r' then "\\r"
  else if c = '\n' then "\\n"
  else if c = '\'' ∨ c = '"' ∨ c = '\\' then String.ofList ['\\', c]
  else if 0x20 ≤ c.toNat ∧ c.toNat ≤ 0x7E then c.toString
  else "\\u" ++ Ty.braces (hexText c.toNat)

def escape (text : String) : String := String.join (text.toList.map escapeChar)

end Constant

namespace Instruction

/-- The opcode with the modifiers that are written beside it. -/
def headText : Instruction → String
  | icmp predicate _ _ => "icmp " ++ predicate.name.toLower
  | fcmp predicate _ _ => "fcmp " ++ predicate.name.toLower
  | getElementPtr true _ _ => "getelementptr inbounds"
  | load _ true _ => "load volatile"
  | store _ _ true _ _ => "store volatile"
  | call site => if site.tailCall then "tail call" else "call"
  | instruction => instruction.opcode.mnemonic

/-- The constant indices follow the operands. -/
def indexText : Instruction → String
  | extractValue _ indices => String.join (indices.map fun index => s!", {index}")
  | insertValue _ _ indices => String.join (indices.map fun index => s!", {index}")
  | _ => ""

/-- The text of an instruction, given the texts of its operands. -/
def text? (name? : ValueId → Option String) (instruction : Instruction) : Option String := do
  let names ← instruction.operands.mapM name?
  let operandText := if names.isEmpty then "" else " " ++ Ty.commaSeparated names
  return instruction.headText ++ operandText ++ instruction.indexText

end Instruction

/-- The text of a constant, given the texts of its operands. -/
def Constant.text? (name? : ValueId → Option String) : Constant → Option String
  | aggregateZero => some "zeroinitializer"
  | pointerNull => some "null"
  | undef => some "undef"
  | int value => some (toString value.toInt)
  | float value => some value.constantText
  | string text => some ("c\"" ++ escape text ++ "\"")
  | array elements => (elements.mapM name?).map fun names => "[" ++ Ty.commaSeparated names ++ "]"
  | struct elements => (elements.mapM name?).map fun names => Ty.braces (Ty.commaSeparated names)
  | vector elements => (elements.mapM name?).map fun names => "<" ++ Ty.commaSeparated names ++ ">"
  | blockAddress function block => do
    return "blockaddress(" ++ (← name? function) ++ ", " ++ (← name? block) ++ ")"
  | expr instruction => (instruction.text? name?).map fun text => "(" ++ text ++ ")"

namespace Module

/-- A name after its mark, the number of the value if it has none. -/
def nameText (mark : String) (value : Value) : String :=
  mark ++ value.header.name.getD (toString value.id)

/-- The text of an operand in which constants nest at most so deep. -/
def operandText? (module : Module) : Nat → ValueId → Option String
  | 0, _ => none
  | depth + 1, id => do
    let value ← module.value? id
    match value.content with
    | .function _ | .globalVariable _ | .globalAlias _ => some (nameText "@" value)
    | .argument _ | .basicBlock _ | .instruction _ => some (nameText "%" value)
    | .inlineAsm fields => some ("asm \"" ++ fields.asm ++ "\"")
    | .constant constant => constant.text? (module.operandText? depth)

/-- A value as it stands among operands. A constant only refers to constants with smaller numbers,
so its own number bounds their depth. -/
def operandName? (module : Module) (id : ValueId) : Option String := module.operandText? (id + 1) id

/-- A value on a line of its own. -/
def valueText? (module : Module) (id : ValueId) : Option String := do
  let value ← module.value? id
  match value.content with
  | .instruction instruction => do
    let text ← instruction.text? module.operandName?
    if (← module.types[value.header.ty]?) = .void then return text
    else return (← module.operandName? id) ++ " = " ++ text
  | .basicBlock _ => return (← module.operandName? id) ++ ":"
  | _ => module.operandName? id

end Module

end FlowIR
