import FlowIR.Double.Basic
import FlowIR.Json.Basic

/-!
# Reading data out of documents

A record is an object with known fields, or a list of the fields in their order. A choice is the
name of an alternative, or an object with the name as its only key and the data of the alternative
as its value.
-/
namespace FlowIR.Json

variable {α : Type}

/-! ### Values -/

/-- An integer between two bounds, both included. -/
def intWithin? (least greatest : Int) : Json → Option Int
  | number numeral => numeral.int?.filter fun n => least ≤ n ∧ n ≤ greatest
  | _ => none

def uint32? (document : Json) : Option UInt32 :=
  (document.intWithin? 0 (UInt32.size - 1 : Nat)).map fun n => UInt32.ofNat n.toNat

def uint64? (document : Json) : Option UInt64 :=
  (document.intWithin? 0 (UInt64.size - 1 : Nat)).map fun n => UInt64.ofNat n.toNat

def int64? (document : Json) : Option Int64 :=
  (document.intWithin? Int64.minValue.toInt Int64.maxValue.toInt).map Int64.ofInt

def double? (format : Double.Format) : Json → Option Double
  | number numeral => format.double? numeral
  | _ => none

def bool? : Json → Option Bool
  | bool value => some value
  | _ => none

def string? : Json → Option String
  | text chars => chars
  | _ => none

def listOf? (decode : Json → Option α) : Json → Option (List α)
  | list items => items.mapM decode
  | _ => none

/-- Null stands for no value. -/
def nullable? (decode : Json → Option α) : Json → Option (Option α)
  | null => some none
  | document => (decode document).map some

/-! ### Records -/

/-- The known fields of an object, if every key is a text and none of them is given twice. -/
def knownFields? (names : List String) (fields : List (Option String × Json)) :
    Option (List (String × Json)) := do
  let keyed ← fields.mapM fun (key, value) => key.map (·, value)
  let known := keyed.filter fun (key, _) => key ∈ names
  guard (known.map Prod.fst).Nodup
  return known

def record? (names : List String) : Json → Option (List (String × Json))
  | object fields => knownFields? names fields
  | list items => if items.length ≤ names.length then some (names.zip items) else none
  | _ => none

def required? (fields : List (String × Json)) (name : String)
    (decode : Json → Option α) : Option α :=
  (fields.lookup name).bind decode

/-- Only a field that is not there takes the default value. -/
def defaulted? (fields : List (String × Json)) (name : String) (default : α)
    (decode : Json → Option α) : Option α :=
  match fields.lookup name with
  | none => some default
  | some value => decode value

/-! ### Choices -/

/-- An alternative without data. Of the two ways to write it one opens an object. -/
def choice? (room : Nat) (ofName? : String → Option α) : Json → Option α
  | text name => name.bind ofName?
  | object [(key, null)] => if 0 < room then key.bind ofName? else none
  | _ => none

end FlowIR.Json
