import FlowIR.Instruction.Basic
import FlowIR.Table.Basic
import FlowIR.Ty.Basic

/-!
# Why a table cannot be linked

Linking stops at the first of these.
-/
namespace FlowIR

open Table (Key TypeKey)

inductive PredicateKind where
  | integer
  | floatingPoint
  deriving DecidableEq, Repr

def PredicateKind.text : PredicateKind → String
  | integer => "integer"
  | floatingPoint => "floating point"

inductive LinkError where
  /-- The text is not that of a table. -/
  | unreadable
  /-- The reader of the program file failed and said why. -/
  | reader (message : String)
  | tooManyReturnValues (count : Nat)
  | malformedBranch (count : Nat)
  | malformedSwitch (count : Nat)
  | malformedIndirectBranch (count : Nat)
  | invalidArity (tag : Tag) (count : Nat)
  | invalidPredicate (kind : PredicateKind) (code : UInt32)
  /-- A value that is not a constant and was not found in the lists of the module. -/
  | knotTyingFailure (key : Key)
  | directGlobalReference (key : Key) (tag : Tag)
  | duplicateKey (key : Key)
  | duplicateType (key : TypeKey)
  | unknownValue (key : Key)
  | unknownType (key : TypeKey)
  | malformedType (key : TypeKey)
  | unresolvedUpref (level : UInt32)
  | unexpectedPayload (key : Key) (tag : Tag)
  | constantCycle (key : Key)
  | undefinedValue (id : ValueId)
  | undefinedType (id : TypeId)
  deriving DecidableEq, Repr

namespace LinkError

def keyText (key : Key) : String := s!"#{key}"

def typeKeyText (key : TypeKey) : String := s!"!{key}"

def message : LinkError → String
  | unreadable => "the input is not the text of a table"
  | reader message => message
  | tooManyReturnValues count => s!"return instruction with {count} operands"
  | malformedBranch count => s!"branch instruction with {count} operands"
  | malformedSwitch count => s!"switch instruction with {count} operands"
  | malformedIndirectBranch count => s!"indirect branch instruction with {count} operands"
  | invalidArity tag count => s!"invalid number of operands for {tag.name}: {count}"
  | invalidPredicate kind code => s!"invalid {kind.text} comparison predicate {code}"
  | knotTyingFailure key =>
    "could not resolve the reference to non-constant value " ++ keyText key
  | directGlobalReference key tag =>
    tag.name ++ " " ++ keyText key ++ " is not a registered global of the module"
  | duplicateKey key => "duplicate record key " ++ keyText key
  | duplicateType key => "duplicate type key " ++ typeKeyText key
  | unknownValue key => "reference to unknown record " ++ keyText key
  | unknownType key => "reference to unknown type " ++ typeKeyText key
  | malformedType key => "type " ++ typeKeyText key ++ " is a bare reference"
  | unresolvedUpref level => s!"upward type reference {level} has no enclosing type"
  | unexpectedPayload key tag =>
    "record " ++ keyText key ++ " tagged " ++ tag.name ++ " carries an unexpected payload"
  | constantCycle key => "constant " ++ keyText key ++ " refers to itself"
  | undefinedValue id => s!"value v{id} was registered but never translated"
  | undefinedType id => s!"type t{id} was registered but never translated"

end LinkError

end FlowIR
