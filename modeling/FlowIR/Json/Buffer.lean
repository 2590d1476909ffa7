import FlowIR.Double.Basic
import FlowIR.Json.Basic

/-!
# Documents that can be kept

Values that are read before it is known whether they are needed have to be texts with characters and
numbers in range, and they may not nest too deeply.
-/
namespace FlowIR.Json

/-- Integers of 64 bits are kept as they are, all other numbers as doubles. -/
def numeralFits (format : Double.Format) (numeral : Decimal.Numeral) : Bool :=
  (numeral.int?.any fun n => Int64.minValue.toInt ≤ n ∧ n < UInt64.size) ||
    (format.double? numeral).isSome

section

variable (format : Double.Format)

mutual

/-- The document can be kept where so many more lists and objects may be opened. -/
def fits : Nat → Json → Bool
  | _, null => true
  | _, bool _ => true
  | _, number numeral => numeralFits format numeral
  | _, text chars => chars.isSome
  | 0, list _ => false
  | room + 1, list items => itemsFit room items
  | 0, object _ => false
  | room + 1, object fields => fieldsFit room fields

def itemsFit (room : Nat) : List Json → Bool
  | [] => true
  | item :: items => fits room item && itemsFit room items

def fieldsFit (room : Nat) : List (Option String × Json) → Bool
  | [] => true
  | (key, value) :: fields => key.isSome && fits room value && fieldsFit room fields

end

end

end FlowIR.Json
