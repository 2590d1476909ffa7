import FlowIR.Decimal.Numeral

/-!
# Double precision numbers

A number is kept as its 64 bits: sign, eleven bits of exponent, 52 bits of fraction. A decimal is
read as the nearest number, a tie going to the even one of its two neighbours.
-/
namespace FlowIR

structure Double where
  bits : UInt64
  deriving DecidableEq, Repr

namespace Double

def negative (d : Double) : Bool := Nat.pow 2 63 ≤ d.bits.toNat

def magnitude (d : Double) : Nat := d.bits.toNat % Nat.pow 2 63

/-- The bits above the fraction, without the sign. -/
def biasedExponent (d : Double) : Nat := d.magnitude / Nat.pow 2 52

def isFinite (d : Double) : Bool := d.biasedExponent < 2047

def isInfinite (d : Double) : Bool := d.magnitude = 2047 * Nat.pow 2 52

def isZero (d : Double) : Bool := d.magnitude = 0

/-- A finite number is its significand times two to the power of its exponent, up to the sign. -/
def significand (d : Double) : Nat :=
  if d.biasedExponent = 0 then d.magnitude else d.magnitude % Nat.pow 2 52 + Nat.pow 2 52

def exponent (d : Double) : Int := (max d.biasedExponent 1 : Nat) - 1075

/-- A fraction of natural numbers, rounded to the nearest one. -/
def roundToEven (num den : Nat) : Nat :=
  let quotient := num / den
  let remainder := num % den
  if 2 * remainder < den then quotient
  else if den < 2 * remainder then quotient + 1
  else quotient + quotient % 2

/-- The fraction divided by a power of two. -/
def scaleDown (num den : Nat) (exponent : Int) : Nat × Nat :=
  if exponent < 0 then (num * Nat.pow 2 exponent.natAbs, den)
    else (num, den * Nat.pow 2 exponent.natAbs)

/-- The exponent at which a positive fraction has 53 bits before the point, or the least one. -/
def targetExponent (num den : Nat) : Int :=
  let estimate : Int := (num.log2 : Int) - den.log2 - 52
  let (scaledNum, scaledDen) := scaleDown num den estimate
  max (if scaledNum / scaledDen < Nat.pow 2 52 then estimate - 1 else estimate) (-1074)

/-- The bits of the number nearest to a positive fraction, if it is finite. A significand that is
rounded up to the next power of two carries into the exponent. -/
def nearestMagnitude? (num den : Nat) : Option Nat :=
  let exponent := targetExponent num den
  let (scaledNum, scaledDen) := scaleDown num den exponent
  let magnitude := (exponent + 1074).toNat * Nat.pow 2 52 + roundToEven scaledNum scaledDen
  if magnitude < 2047 * Nat.pow 2 52 then some magnitude else none

/-- The magnitude nearest to a mantissa times a power of ten. The first two bounds are so wide that
they decide nothing, they only keep the powers of ten small. -/
def decimalMagnitude? (mantissa : Nat) (scale : Int) : Option Nat :=
  if mantissa = 0 then some 0
  else
    let point := scale + (Decimal.digits mantissa).length
    if 400 < point then none
    else if point < -400 then some 0
    else if scale < 0 then nearestMagnitude? mantissa (Nat.pow 10 scale.natAbs)
    else nearestMagnitude? (mantissa * Nat.pow 10 scale.natAbs) 1

def ofMagnitude (negative : Bool) (magnitude : Nat) : Double :=
  ⟨UInt64.ofNat (if negative then Nat.pow 2 63 + magnitude else magnitude)⟩

/-- A numeral beyond the greatest number is refused, one below the least is zero. -/
def ofNumeral? (numeral : Decimal.Numeral) : Option Double :=
  (decimalMagnitude? numeral.mantissa numeral.scale).map (ofMagnitude numeral.negative)

/-- How numbers are written and read. Only finite ones are ever written. -/
structure Format where
  numeral : Double → Decimal.Numeral
  double? : Decimal.Numeral → Option Double

end Double

end FlowIR
