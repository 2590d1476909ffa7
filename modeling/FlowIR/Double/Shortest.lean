import FlowIR.Double.Basic

/-!
# The shortest decimal of a double

The fewest digits that read back as the same number, and of those the nearest to it. How the digits
are laid out, and which way an exact tie goes, is for the layout to say.
-/
namespace FlowIR.Double

open Decimal (Digit Numeral)

/-- Which of two equally near decimals of the same length is written. -/
inductive Tie where
  | toEven
  | up
  deriving DecidableEq, Repr

/-- Zero point followed by the digits, times ten to the power of the point. -/
structure Shortest where
  digits : List Digit
  point : Int
  deriving DecidableEq, Repr

/-- A finite magnitude as a fraction. -/
def fraction (d : Double) : Nat × Nat := scaleDown d.significand 1 (-d.exponent)

/-- Powers of ten above every ratio of a finite double. -/
def decimalShift : Nat := 400

/-- The number of digits before the decimal point, negative if zeros follow it. -/
def decimalPoint (d : Double) : Int :=
  let (num, den) := d.fraction
  ((Decimal.digits (num * Nat.pow 10 decimalShift / den)).length : Int) - decimalShift

def readsBack (d : Double) (mantissa : Nat) (scale : Int) : Bool :=
  decimalMagnitude? mantissa scale = some d.magnitude

/-- The decimal of the given scale that reads back, the nearer one if both neighbours do. -/
def atScale? (d : Double) (tie : Tie) (scale : Int) : Option Nat :=
  let (num, den) := d.fraction
  let (gridNum, gridDen) :=
    if scale < 0 then (num * Nat.pow 10 scale.natAbs, den) else (num, den * Nat.pow 10 scale.natAbs)
  let lower := gridNum / gridDen
  let twice := 2 * (gridNum % gridDen)
  let preferUpper := gridDen < twice ∨ (gridDen = twice ∧ (tie = .up ∨ lower % 2 = 1))
  match d.readsBack lower scale, d.readsBack (lower + 1) scale with
  | true, true => some (if preferUpper then lower + 1 else lower)
  | true, false => some lower
  | false, true => some (lower + 1)
  | false, false => none

def dropTrailingZeros (ds : List Digit) : List Digit :=
  (ds.reverse.dropWhile (· == Digit.zero)).reverse

/-- The mantissa and the scale of a decimal with so many digits, if one reads back. -/
def withDigits? (d : Double) (tie : Tie) (count : Nat) : Option (Nat × Int) :=
  let scale : Int := d.decimalPoint - count
  (d.atScale? tie scale).map fun mantissa => (mantissa, scale)

/-- Seventeen digits are always enough. -/
def fewestDigits (d : Double) (tie : Tie) : Nat × Int :=
  ((List.range' 1 17).findSome? (d.withDigits? tie)).getD (0, 0)

def shortest (d : Double) (tie : Tie) : Shortest :=
  let decimal := d.fewestDigits tie
  let ds := Decimal.digits decimal.1
  { digits := dropTrailingZeros ds, point := decimal.2 + ds.length }

/-! ### Layouts -/

/-- Numbers whose point lies in the range are written positionally, all others with an exponent. -/
structure Layout where
  leastPoint : Int
  greatestPoint : Int
  positiveExponent : Decimal.ExponentSign
  tie : Tie

def positional (negative : Bool) (s : Shortest) : Numeral :=
  let (whole, fraction) :=
    if s.point ≤ 0 then ([.zero], List.replicate s.point.natAbs .zero ++ s.digits)
    else if s.digits.length ≤ s.point.natAbs then
      (s.digits ++ List.replicate (s.point.natAbs - s.digits.length) .zero, [.zero])
    else s.digits.splitAt s.point.natAbs
  { negative, whole, fraction := some fraction, exponent := none }

def exponential (layout : Layout) (negative : Bool) (s : Shortest) : Numeral :=
  let power := s.point - 1
  let sign := if power < 0 then .minus else layout.positiveExponent
  let tail := s.digits.drop 1
  { negative, whole := s.digits.take 1
    fraction := if tail.isEmpty then none else some tail
    exponent := some { sign, digits := Decimal.digits power.natAbs } }

/-- The numeral of a finite number. -/
def numeral (layout : Layout) (d : Double) : Numeral :=
  if d.isZero then
    { negative := d.negative, whole := [.zero], fraction := some [.zero], exponent := none }
  else
    let s := d.shortest layout.tie
    if layout.leastPoint ≤ s.point ∧ s.point ≤ layout.greatestPoint then
      positional d.negative s
    else exponential layout d.negative s

end FlowIR.Double
