import FlowIR.Decimal.Numeral
import Mathlib.Algebra.Group.Nat.Defs
import Mathlib.Control.Basic
import Mathlib.Data.Option.Basic

/-!
# Numerals that are read back

A numeral is well formed if its parts have digits and no zero leads it for nothing. The reader takes
every part of such a numeral as it was written, because each part ends where a character follows
that is not a digit.
-/
namespace FlowIR.Decimal

/-! ### Digits -/

@[simp] theorem Digit.zero_eq : Digit.zero = 0 := rfl

@[simp] theorem Digit.ofChar?_char (digit : Digit) : Digit.ofChar? digit.char = some digit := by
  revert digit
  decide

private theorem Digit.char_ne {c : Char} (other : Digit.ofChar? c = none) (digit : Digit) :
    digit.char ≠ c := by
  rintro rfl
  simp at other

private theorem value_foldl (ds : List Digit) (before : Nat) :
    ds.foldl (fun acc digit => 10 * acc + digit.val) before =
      before * 10 ^ ds.length + value ds := by
  induction ds generalizing before with
  | nil => simp [value]
  | cons digit ds ih =>
    rw [value, List.foldl_cons, List.foldl_cons, ih, ih (10 * 0 + digit.val),
      List.length_cons, Nat.pow_succ]
    grind

@[simp] theorem value_append (ds others : List Digit) :
    value (ds ++ others) = value ds * 10 ^ others.length + value others := by
  rw [value, List.foldl_append, value_foldl]
  rfl

@[simp] theorem value_nil : value [] = 0 := rfl

@[simp] theorem value_singleton (digit : Digit) : value [digit] = digit.val := by simp [value]

@[simp] theorem value_replicate_zero (count : Nat) : value (List.replicate count 0) = 0 := by
  induction count with
  | zero => rfl
  | succ count ih =>
    rw [List.replicate_succ', value_append, ih]
    rfl

@[simp] theorem value_zero_cons (ds : List Digit) : value (0 :: ds) = value ds := rfl

theorem value_lt (ds : List Digit) : value ds < 10 ^ ds.length := by
  induction ds with
  | nil => simp
  | cons digit ds ih =>
    have tens : value [digit] * 10 ^ ds.length ≤ 9 * 10 ^ ds.length :=
      Nat.mul_le_mul_right _ (by rw [value_singleton]; omega)
    have split : value (digit :: ds) = value [digit] * 10 ^ ds.length + value ds :=
      value_append [digit] ds
    rw [split, List.length_cons, Nat.pow_succ]
    omega

@[simp] theorem value_digits (n : Nat) : value (digits n) = n := by
  fun_induction digits n with
  | case1 n small => simp
  | case2 n large ih =>
    simp only [value_append, ih, value_singleton, List.length_singleton, Nat.pow_one]
    omega

/-- Only zero is written with a leading zero. -/
theorem digits_eq_cons (n : Nat) :
    ∃ first rest, digits n = first :: rest ∧ (n ≠ 0 → first ≠ 0) := by
  fun_induction digits n with
  | case1 n small => exact ⟨_, [], rfl, by simp [Fin.ext_iff]⟩
  | case2 n large ih =>
    obtain ⟨first, rest, split, leads⟩ := ih
    exact ⟨first, rest ++ [_], by rw [split, List.cons_append], fun _ => leads (by omega)⟩

theorem pow_length_digits_le {n : Nat} (nonzero : n ≠ 0) : 10 ^ ((digits n).length - 1) ≤ n := by
  fun_induction digits n with
  | case1 n small =>
    simp
    omega
  | case2 n large ih =>
    obtain ⟨first, rest, split, -⟩ := digits_eq_cons (n / 10)
    have shorter : 10 ^ ((digits (n / 10)).length - 1) ≤ n / 10 := ih (by omega)
    rw [split] at shorter ⊢
    simp only [List.length_cons, List.length_append, Nat.add_sub_cancel, List.length_nil,
      Nat.zero_add] at shorter ⊢
    rw [Nat.pow_succ]
    omega

/-- A run of digits ends in front of any other character. -/
theorem takeDigits_chars (ds : List Digit) {rest : List Char}
    (ends : ∀ c ∈ rest.head?, Digit.ofChar? c = none) :
    takeDigits (chars ds ++ rest) = (ds, rest) := by
  induction ds with
  | nil =>
    cases rest with
    | nil => rfl
    | cons c rest => simp [chars, takeDigits, ends c rfl]
  | cons digit ds ih =>
    have step : takeDigits (digit.char :: (chars ds ++ rest)) = (digit :: ds, rest) := by
      simp [takeDigits, ih]
    exact step

namespace Numeral

/-! ### Whole numerals -/

structure IsValid (numeral : Numeral) : Prop where
  whole : wholeIsValid numeral.whole
  fraction : ∀ ds ∈ numeral.fraction, ds ≠ []
  exponent : ∀ exponent ∈ numeral.exponent, exponent.digits ≠ []

private theorem takeFraction?_fractionChars {fraction : Option (List Digit)} {rest : List Char}
    (valid : ∀ ds ∈ fraction, ds ≠ []) (ends : ∀ c ∈ rest.head?, Digit.ofChar? c = none ∧ c ≠ '.') :
    takeFraction? (fractionChars fraction ++ rest) = some (fraction, rest) := by
  match fraction, rest with
  | none, [] => rfl
  | none, c :: rest =>
    have other : c ≠ '.' := (ends c rfl).2
    simp [fractionChars, takeFraction?, other]
  | some [], _ => simp at valid
  | some (digit :: ds), rest =>
    rw [fractionChars, List.cons_append, takeFraction?,
      takeDigits_chars _ fun c mem => (ends c mem).1]

private theorem take_signChars (sign : ExponentSign) (digit : Digit) (ds : List Digit) :
    ExponentSign.take (sign.chars ++ Decimal.chars (digit :: ds)) =
      (sign, Decimal.chars (digit :: ds)) := by
  cases sign with
  | bare =>
    have not_plus : digit.char ≠ '+' := digit.char_ne (by decide)
    have not_minus : digit.char ≠ '-' := digit.char_ne (by decide)
    simp [ExponentSign.chars, ExponentSign.take, Decimal.chars, not_plus, not_minus]
  | plus => rfl
  | minus => rfl

private theorem takeExponent?_exponentChars {exponent : Option Exponent}
    (valid : ∀ written ∈ exponent, written.digits ≠ []) :
    takeExponent? (exponentChars exponent) = some (exponent, []) := by
  match exponent with
  | none => rfl
  | some ⟨sign, []⟩ => simp at valid
  | some ⟨sign, digit :: ds⟩ =>
    have run : takeDigits (Decimal.chars (digit :: ds) ++ []) = (digit :: ds, []) :=
      takeDigits_chars _ (by simp)
    rw [List.append_nil] at run
    simp [exponentChars, takeExponent?, take_signChars, run]

private theorem takeSign_signChars (negative : Bool) (digit : Digit) (ds : List Digit)
    (rest : List Char) :
    takeSign ((if negative then ['-'] else []) ++ (Decimal.chars (digit :: ds) ++ rest)) =
      (negative, Decimal.chars (digit :: ds) ++ rest) := by
  cases negative with
  | true => rfl
  | false =>
    have not_minus : digit.char ≠ '-' := digit.char_ne (by decide)
    simp [takeSign, Decimal.chars, not_minus]

/-- What follows the digits before the point is not a digit. -/
theorem head?_fractionChars {fraction : Option (List Digit)} {exponent : Option Exponent} {c : Char}
    (mem : c ∈ (fractionChars fraction ++ exponentChars exponent).head?) :
    Digit.ofChar? c = none := by
  cases fraction <;> cases exponent <;>
    simp [fractionChars, exponentChars] at mem <;> subst mem <;> decide

private theorem head?_exponentChars {exponent : Option Exponent} {c : Char}
    (mem : c ∈ (exponentChars exponent).head?) :
    Digit.ofChar? c = none ∧ c ≠ '.' := by
  cases exponent with
  | none => simp [exponentChars] at mem
  | some exponent =>
    have letter : 'e' = c := by simpa [exponentChars] using mem
    subst letter
    decide

theorem parse?_chars {numeral : Numeral} (valid : numeral.IsValid) :
    parse? numeral.chars = some numeral := by
  obtain ⟨negative, whole, fraction, exponent⟩ := numeral
  match whole with
  | [] => exact absurd valid.whole (by simp [wholeIsValid])
  | digit :: ds =>
    have digits_end :
        takeDigits (Decimal.chars (digit :: ds) ++
        (fractionChars fraction ++ exponentChars exponent)) =
        (digit :: ds, fractionChars fraction ++ exponentChars exponent) :=
      takeDigits_chars _ fun _ => head?_fractionChars
    have fraction_ends : takeFraction? (fractionChars fraction ++ exponentChars exponent) =
        some (fraction, exponentChars exponent) :=
      takeFraction?_fractionChars valid.fraction fun _ => head?_exponentChars
    simp [parse?, Numeral.chars, takeSign_signChars, digits_end, fraction_ends, valid.whole,
      takeExponent?_exponentChars valid.exponent]

/-! ### Integers -/

theorem isValid_ofInt (n : Int) : (ofInt n).IsValid where
  whole := by
    obtain ⟨first, rest, split, leads⟩ := digits_eq_cons n.natAbs
    simp only [ofInt, split]
    cases rest with
    | nil => rfl
    | cons second rest =>
      have nonzero : n.natAbs ≠ 0 := by
        intro zero
        rw [zero, digits] at split
        simp at split
      simpa [wholeIsValid] using leads nonzero
  fraction := by simp [ofInt]
  exponent := by simp [ofInt]

@[simp] theorem int?_ofInt (n : Int) : (ofInt n).int? = some n := by
  simp only [int?, ofInt, value_digits, decide_eq_true_eq]
  split
  · rw [if_neg (by omega)]
    congr 1
    omega
  · congr 1
    omega

end Numeral

end FlowIR.Decimal
