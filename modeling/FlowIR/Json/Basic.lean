import FlowIR.Decimal.Numeral

/-!
# Documents

The text format of tables. A document keeps what its text says and no more: numbers stay numerals,
and an object keeps its fields in order, repeated ones included.
-/
namespace FlowIR

/-- A text has no characters if one of its escapes names half of a surrogate pair. -/
inductive Json where
  | null
  | bool (value : Bool)
  | number (numeral : Decimal.Numeral)
  | text (chars : Option String)
  | list (items : List Json)
  | object (fields : List (Option String × Json))
  deriving Inhabited

namespace Json

/-- A piece of a document that has no smaller parts. -/
inductive Token where
  | openList
  | closeList
  | openObject
  | closeObject
  | comma
  | colon
  | null
  | bool (value : Bool)
  | number (numeral : Decimal.Numeral)
  | text (chars : Option String)
  deriving DecidableEq, Repr

end Json

end FlowIR
