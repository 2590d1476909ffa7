import FlowIR.Decimal.Digits

/-!
# Numerals

A numeral is a number as it is written: a sign, digits before the point, and perhaps a fraction and
an exponent. Reading keeps all of this apart, since `1`, `1.0` and `1e0` are not interchangeable
where an integer is asked for.
-/
namespace FlowIR.Decimal

inductive ExponentSign where
  | bare
  | plus
  | minus
  deriving DecidableEq, Repr

structure Exponent where
  sign : ExponentSign
  digits : List Digit
  deriving DecidableEq, Repr

structure Numeral where
  negative : Bool
  whole : List Digit
  fraction : Option (List Digit)
  exponent : Option Exponent
  deriving DecidableEq, Repr

namespace ExponentSign

def chars : ExponentSign → List Char
  | bare => []
  | plus => ['+']
  | minus => ['-']

def take : List Char → ExponentSign × List Char
  | '+' :: rest => (plus, rest)
  | '-' :: rest => (minus, rest)
  | text => (bare, text)

end ExponentSign

def Exponent.value (exponent : Exponent) : Int :=
  match exponent.sign with
  | .minus => -(Decimal.value exponent.digits : Int)
  | _ => Decimal.value exponent.digits

namespace Numeral

def ofInt (n : Int) : Numeral :=
  { negative := n < 0, whole := digits n.natAbs, fraction := none, exponent := none }

/-! ### Writing -/

def fractionChars : Option (List Digit) → List Char
  | none => []
  | some ds => '.' :: chars ds

def exponentChars : Option Exponent → List Char
  | none => []
  | some exponent => 'e' :: exponent.sign.chars ++ chars exponent.digits

def chars (numeral : Numeral) : List Char :=
  (if numeral.negative then ['-'] else []) ++ Decimal.chars numeral.whole
    ++ fractionChars numeral.fraction ++ exponentChars numeral.exponent

def text (numeral : Numeral) : String := String.ofList numeral.chars

/-! ### Reading -/

/-- A zero stands before the other digits only if there are none. -/
def wholeIsValid : List Digit → Bool
  | [] => false
  | [_] => true
  | first :: _ => first != 0

def takeFraction? : List Char → Option (Option (List Digit) × List Char)
  | '.' :: rest =>
    match takeDigits rest with
    | ([], _) => none
    | (ds, after) => some (some ds, after)
  | text => some (none, text)

def takeExponent? : List Char → Option (Option Exponent × List Char)
  | [] => some (none, [])
  | c :: rest =>
    if c = 'e' ∨ c = 'E' then
      let (sign, unsigned) := ExponentSign.take rest
      match takeDigits unsigned with
      | ([], _) => none
      | (ds, after) => some (some { sign, digits := ds }, after)
    else some (none, c :: rest)

def takeSign : List Char → Bool × List Char
  | '-' :: rest => (true, rest)
  | text => (false, text)

/-- A whole text that is one numeral. -/
def parse? (text : List Char) : Option Numeral := do
  let (negative, unsigned) := takeSign text
  let (whole, afterWhole) := takeDigits unsigned
  guard (wholeIsValid whole)
  let (fraction, afterFraction) ← takeFraction? afterWhole
  let (exponent, rest) ← takeExponent? afterFraction
  guard rest.isEmpty
  return { negative, whole, fraction, exponent }

/-! ### Meaning -/

/-- The number is the mantissa times ten to the power of the scale. -/
def mantissa (numeral : Numeral) : Nat :=
  value (numeral.whole ++ numeral.fraction.getD [])

def scale (numeral : Numeral) : Int :=
  ((numeral.exponent.map Exponent.value).getD 0) - (numeral.fraction.getD []).length

/-- Integers are written without fraction and exponent, and zero without a sign. -/
def int? (numeral : Numeral) : Option Int :=
  match numeral.fraction, numeral.exponent with
  | none, none =>
    let magnitude := value numeral.whole
    if numeral.negative then if magnitude = 0 then none else some (-magnitude)
    else some magnitude
  | _, _ => none

end Numeral

end FlowIR.Decimal
