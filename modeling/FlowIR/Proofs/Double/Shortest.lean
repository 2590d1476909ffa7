import FlowIR.Double.Shortest
import FlowIR.Proofs.Double.Rounding
import Mathlib.Algebra.Order.Floor.Semifield

/-!
# Doubles that are read back

Seventeen digits are enough: on a grid that is finer than one part in ten to the power of sixteen,
one of the two neighbours of a number is read as this number. Shorter decimals are only taken if
they are read back, and the layouts move the point without changing the number.
-/
namespace FlowIR.Double

open Decimal (Digit Numeral)

/-! ### The grid of a scale -/

private theorem fraction_eq (d : Double) : (d.fraction.1 / d.fraction.2 : ℚ) = d.absValue := by
  rw [fraction, scaleDown_eq, absValue, zpow_neg]
  simp

private theorem absValue_pos {d : Double} (nonzero : d.magnitude ≠ 0) : 0 < d.absValue :=
  lt_of_lt_of_le (by positivity) (le_absValue nonzero)

private theorem log_mul_ten_zpow {x : ℚ} (positive : 0 < x) (shift : Int) :
    Int.log 10 (x * 10 ^ shift) = Int.log 10 x + shift := by
  have shift_pos : (0 : ℚ) < 10 ^ shift := by positivity
  have shifted_pos : 0 < x * 10 ^ shift := by positivity
  have le_iff : ∀ exponent, exponent ≤ Int.log 10 (x * 10 ^ shift) ↔
      exponent ≤ Int.log 10 x + shift := by
    intro exponent
    rw [← ten_zpow_le_iff shifted_pos, ← div_le_iff₀ shift_pos, ← zpow_sub₀ (by norm_num),
      ten_zpow_le_iff positive]
    omega
  exact le_antisymm ((le_iff _).mp le_rfl) ((le_iff _).mpr le_rfl)

/-- Shifted by enough places the whole part alone tells the place of the first digit. -/
theorem decimalPoint_eq {d : Double} (nonzero : d.magnitude ≠ 0) :
    d.decimalPoint = Int.log 10 d.absValue + 1 := by
  have positive := absValue_pos nonzero
  have one_le : 1 ≤ d.absValue * 10 ^ (400 : Int) := by
    have powers : 2 ^ 1074 ≤ 10 ^ 400 := by decide +kernel
    calc (1 : ℚ) ≤ 2 ^ (-1074 : Int) * 10 ^ (400 : Int) := by
          rw [zpow_neg, le_inv_mul_iff₀ (by positivity), mul_one]
          exact_mod_cast powers
      _ ≤ d.absValue * 10 ^ (400 : Int) :=
        mul_le_mul_of_nonneg_right (le_absValue nonzero) (by positivity)
  have whole : ⌊d.absValue * 10 ^ (400 : Int)⌋₊ =
      d.fraction.1 * Nat.pow 10 decimalShift / d.fraction.2 := by
    have written : d.absValue * 10 ^ (400 : Int) =
        ((d.fraction.1 * Nat.pow 10 decimalShift : ℕ) : ℚ) / d.fraction.2 := by
      rw [← fraction_eq, Nat.pow_eq, Nat.cast_mul, Nat.cast_pow, Nat.cast_ofNat, div_mul_eq_mul_div]
      rfl
    rw [written, Nat.floor_div_eq_div]
  -- The smallest number is large enough for its whole part not to vanish after the shift.
  have whole_pos : ⌊d.absValue * 10 ^ (400 : Int)⌋₊ ≠ 0 := (Nat.floor_pos.mpr one_le).ne'
  have place := length_digits_eq whole_pos 0
  rw [zpow_zero, mul_one, Int.log_natCast, ← Int.log_of_one_le_right 10 one_le,
    log_mul_ten_zpow positive, whole] at place
  simp only [decimalPoint, decimalShift] at place ⊢
  omega

/-- The candidates are the neighbours of the number on the grid. -/
theorem atScale?_eq (d : Double) (tie : Tie) (scale : Int) :
    ∃ lower preferred : Nat, (preferred = lower ∨ preferred = lower + 1) ∧
      (lower : ℚ) * 10 ^ scale ≤ d.absValue ∧ d.absValue < (lower + 1) * 10 ^ scale ∧
      d.atScale? tie scale =
        match d.readsBack lower scale, d.readsBack (lower + 1) scale with
        | true, true => some preferred
        | true, false => some lower
        | false, true => some (lower + 1)
        | false, false => none := by
  have scale_pos : (0 : ℚ) < 10 ^ scale := by positivity
  let grid := if scale < 0 then (d.fraction.1 * Nat.pow 10 scale.natAbs, d.fraction.2)
    else (d.fraction.1, d.fraction.2 * Nat.pow 10 scale.natAbs)
  have on_grid : (grid.1 / grid.2 : ℚ) = d.absValue / 10 ^ scale := by
    rw [← fraction_eq]
    simp only [grid]
    split
    next negative =>
      simp only [zpow_of_neg _ negative, Nat.pow_eq, Nat.cast_mul, Nat.cast_pow, Nat.cast_ofNat]
      field_simp
    next nonneg =>
      simp only [zpow_of_not_neg _ nonneg, Nat.pow_eq, Nat.cast_mul, Nat.cast_pow, Nat.cast_ofNat]
      field_simp
  have whole : grid.1 / grid.2 = ⌊d.absValue / 10 ^ scale⌋₊ := by
    rw [← on_grid, Nat.floor_div_eq_div]
  have value_nonneg : 0 ≤ d.absValue / 10 ^ scale := by rw [← on_grid]; positivity
  refine ⟨grid.1 / grid.2, _, ?_, ?_, ?_, rfl⟩
  · split
    · exact .inr rfl
    · exact .inl rfl
  · rw [whole, ← le_div_iff₀ scale_pos]
    exact Nat.floor_le value_nonneg
  · rw [whole, ← div_lt_iff₀ scale_pos]
    exact Nat.lt_floor_add_one _

/-- Only decimals that are read back are offered. -/
theorem readsBack_of_atScale? {d : Double} {tie : Tie} {scale : Int} {mantissa : Nat}
    (offered : d.atScale? tie scale = some mantissa) : d.readsBack mantissa scale := by
  obtain ⟨lower, preferred, neighbour, -, -, taken⟩ := atScale?_eq d tie scale
  rw [taken] at offered
  grind

/-- On a fine grid the nearer neighbour is read back. -/
theorem atScale?_isSome {d : Double} (finite : d.isFinite) (nonzero : d.magnitude ≠ 0) (tie : Tie)
    {scale : Int} (fine : 10 ^ scale * 10 ^ 16 ≤ d.absValue) : (d.atScale? tie scale).isSome := by
  obtain ⟨lower, preferred, -, below, above, taken⟩ := atScale?_eq d tie scale
  have near_read : ∀ mantissa : Nat, |(mantissa : ℚ) * 10 ^ scale - d.absValue| ≤ 10 ^ scale / 2 →
      d.readsBack mantissa scale := by
    intro mantissa near
    -- Half a step is one part in two times ten to the power of 16, which exceeds two to the power
    -- of 54.
    apply decide_eq_true
    apply decimalMagnitude?_of_near finite nonzero
    linarith
  have one_read : d.readsBack lower scale ∨ d.readsBack (lower + 1) scale := by
    rcases le_total (d.absValue - lower * 10 ^ scale) (10 ^ scale / 2) with nearer | nearer
    · left
      apply near_read
      rw [abs_le]
      constructor <;> linarith
    · right
      apply near_read
      rw [abs_le]
      push_cast
      constructor <;> linarith
  rw [taken]
  grind

/-! ### The digits that are written -/

namespace Shortest

/-- The number that the digits and the point stand for. -/
def number (s : Shortest) : ℚ := Decimal.value s.digits * 10 ^ (s.point - s.digits.length)

/-- The digits start with one that counts. -/
def Leads (s : Shortest) : Prop := ∃ first rest, s.digits = first :: rest ∧ first ≠ .zero

end Shortest

private theorem dropTrailingZeros_append (ds : List Digit) :
    ∃ count, ds = dropTrailingZeros ds ++ List.replicate count 0 := by
  have zeros : ∀ digit ∈ ds.reverse.takeWhile (· == Digit.zero), digit = 0 := by
    intro digit mem
    simpa using List.all_eq_true.mp List.all_takeWhile digit mem
  have split := congrArg List.reverse
    (List.takeWhile_append_dropWhile (p := (· == Digit.zero)) (l := ds.reverse))
  rw [List.reverse_append, List.reverse_reverse, List.eq_replicate_of_mem zeros,
    List.reverse_replicate] at split
  exact ⟨_, split.symm⟩

private theorem fewestDigits_readsBack {d : Double} (finite : d.isFinite)
    (nonzero : d.magnitude ≠ 0) (tie : Tie) :
    d.readsBack (d.fewestDigits tie).1 (d.fewestDigits tie).2 := by
  -- The search ends at seventeen digits at the latest, and it stops only at a decimal that is read
  -- back.
  have seventeen : (d.withDigits? tie 17).isSome := by
    have shifted : (10 : ℚ) ^ (d.decimalPoint - (17 : Nat)) * 10 ^ 16 =
        10 ^ Int.log 10 d.absValue := by
      rw [← zpow_natCast, ← zpow_add₀ (by norm_num), decimalPoint_eq nonzero]
      congr 1
      omega
    rw [withDigits?, Option.isSome_map]
    apply atScale?_isSome finite nonzero
    rw [shifted, ten_zpow_le_iff (absValue_pos nonzero)]
  have found : ((List.range' 1 17).findSome? (d.withDigits? tie)).isSome := by
    rw [List.findSome?_isSome_iff]
    exact ⟨17, by decide, seventeen⟩
  obtain ⟨decimal, hit⟩ := Option.isSome_iff_exists.mp found
  obtain ⟨count, -, taken⟩ := List.exists_of_findSome?_eq_some hit
  obtain ⟨mantissa, offered, rfl⟩ := Option.map_eq_some_iff.mp taken
  rw [fewestDigits, hit]
  exact readsBack_of_atScale? offered

private theorem number_dropTrailingZeros (ds : List Digit) (scale : Int) :
    Shortest.number { digits := dropTrailingZeros ds, point := scale + ds.length } =
      Decimal.value ds * 10 ^ scale := by
  obtain ⟨count, split⟩ := dropTrailingZeros_append ds
  have value : Decimal.value ds = Decimal.value (dropTrailingZeros ds) * 10 ^ count := by
    have := congrArg Decimal.value split
    simpa using this
  have length : ds.length = (dropTrailingZeros ds).length + count := by
    have := congrArg List.length split
    simpa using this
  rw [value, Shortest.number, Nat.cast_mul, Nat.cast_pow, Nat.cast_ofNat, mul_assoc, ← zpow_natCast,
    ← zpow_add₀ (by norm_num)]
  congr 2
  simp only [length]
  omega

private theorem number_shortest (d : Double) (tie : Tie) :
    (d.shortest tie).number = (d.fewestDigits tie).1 * 10 ^ (d.fewestDigits tie).2 := by
  rw [shortest, number_dropTrailingZeros, Decimal.value_digits]

private theorem leads_dropTrailingZeros {ds : List Digit} {first : Digit} {rest : List Digit}
    (starts : ds = first :: rest) (counts : first ≠ 0) (point : Int) :
    Shortest.Leads { digits := dropTrailingZeros ds, point } := by
  obtain ⟨count, split⟩ := dropTrailingZeros_append ds
  cases kept : dropTrailingZeros ds with
  | nil =>
    -- Nothing is left only if all digits are zeros.
    rw [kept, List.nil_append, starts] at split
    have : first ∈ List.replicate count 0 := split ▸ List.mem_cons_self
    exact absurd (List.eq_of_mem_replicate this) counts
  | cons digit others =>
    rw [kept, List.cons_append, starts] at split
    exact ⟨digit, others, rfl, (List.cons.inj split).1 ▸ counts⟩

private theorem leads_shortest {d : Double} {tie : Tie} (nonzero : (d.fewestDigits tie).1 ≠ 0) :
    (d.shortest tie).Leads := by
  obtain ⟨first, rest, starts, leads⟩ := Decimal.digits_eq_cons (d.fewestDigits tie).1
  exact leads_dropTrailingZeros starts (leads nonzero) _

/-! ### Layouts -/

/-- The numeral is well formed and stands for the number. -/
def Lays (numeral : Numeral) (s : Shortest) : Prop :=
  numeral.IsValid ∧ (numeral.mantissa : ℚ) * 10 ^ numeral.scale = s.number

/-- A numeral with the same digits and the same point. -/
theorem Lays.of_digits {numeral : Numeral} {s : Shortest} (valid : numeral.IsValid)
    (mantissa : numeral.mantissa = Decimal.value s.digits)
    (scale : numeral.scale = s.point - s.digits.length) :
    Lays numeral s :=
  ⟨valid, by rw [mantissa, scale, Shortest.number]⟩

private theorem Shortest.Leads.wholeIsValid_append {s : Shortest} (leads : s.Leads)
    {whole rest : List Digit} (split : s.digits = whole ++ rest) (filled : whole ≠ [])
    (more : List Digit) :
    Numeral.wholeIsValid (whole ++ more) := by
  obtain ⟨first, others, starts, counts⟩ := leads
  rw [Digit.zero_eq] at counts
  match whole with
  | [] => exact absurd rfl filled
  | digit :: digits =>
    rw [starts, List.cons_append] at split
    have same : digit = first := (List.cons.inj split).1.symm
    cases kept : digits ++ more <;> simp [kept, Numeral.wholeIsValid, same, counts]

private theorem lays_positional {s : Shortest} (leads : s.Leads) (negative : Bool) :
    Lays (positional negative s) s := by
  have filled : s.digits ≠ [] := by
    obtain ⟨first, others, starts, -⟩ := leads
    simp [starts]
  by_cases before : s.point ≤ 0
  · -- Zeros stand between the point and the digits.
    have laid : positional negative s =
        { negative, whole := [0], fraction := some (List.replicate s.point.natAbs 0 ++ s.digits),
          exponent := none } := by
      simp [positional, before]
    rw [laid]
    apply Lays.of_digits
    · exact ⟨rfl, by simp [filled], by simp⟩
    · simp [Numeral.mantissa]
    · simp only [Numeral.scale, Option.map_none, Option.getD_none, Option.getD_some,
        List.length_append, List.length_replicate]
      omega
  by_cases after : s.digits.length ≤ s.point.natAbs
  · -- Zeros stand between the digits and the point.
    have laid : positional negative s =
        { negative, whole := s.digits ++ List.replicate (s.point.natAbs - s.digits.length) 0,
          fraction := some [0], exponent := none } := by
      simp [positional, before, after]
    rw [laid]
    refine ⟨⟨leads.wholeIsValid_append (List.append_nil _).symm filled _, by simp, by simp⟩, ?_⟩
    have shift : s.point - s.digits.length = ((s.point.natAbs - s.digits.length : Nat) : Int) := by
      omega
    simp [Numeral.mantissa, Numeral.scale, Shortest.number, shift]
    field_simp
    ring
  · have laid : positional negative s =
        { negative, whole := s.digits.take s.point.natAbs,
          fraction := some (s.digits.drop s.point.natAbs),
          exponent := none } := by
      simp [positional, before, after]
    have cut : s.digits = s.digits.take s.point.natAbs ++ s.digits.drop s.point.natAbs :=
      (List.take_append_drop _ _).symm
    rw [laid]
    apply Lays.of_digits
    · refine ⟨?_, by simpa using by omega, by simp⟩
      simpa using leads.wholeIsValid_append cut (by simp [filled]; omega) []
    · simp only [Numeral.mantissa, Option.getD_some, ← cut]
    · simp only [Numeral.scale, Option.map_none, Option.getD_none, Option.getD_some,
        List.length_drop]
      omega

private theorem lays_exponential {s : Shortest} (leads : s.Leads) {layout : Layout}
    (signed : layout.positiveExponent ≠ .minus) (negative : Bool) :
    Lays (exponential layout negative s) s := by
  obtain ⟨first, rest, starts, -⟩ := leads
  -- A bare exponent and one after a plus have the same value.
  have written : ∀ sign ≠ Decimal.ExponentSign.minus, ∀ power : Nat,
      Decimal.Exponent.value { sign, digits := Decimal.digits power } = power := by
    intro sign other power
    cases sign <;> simp_all [Decimal.Exponent.value]
  have power : Decimal.Exponent.value
      { sign := if s.point - 1 < 0 then .minus else layout.positiveExponent
        digits := Decimal.digits (s.point - 1).natAbs } = s.point - 1 := by
    split
    · simp only [Decimal.Exponent.value, Decimal.value_digits]
      omega
    · rw [written _ signed]
      omega
  have filled : ∀ power, Decimal.digits power ≠ [] := by
    intro power
    obtain ⟨digit, others, split, -⟩ := Decimal.digits_eq_cons power
    simp [split]
  apply Lays.of_digits
  · refine ⟨by simp [exponential, starts, Numeral.wholeIsValid], ?_, by simp [exponential, filled]⟩
    simp only [exponential, starts]
    cases rest <;> simp
  · simp only [exponential, starts, Numeral.mantissa]
    cases rest <;> simp
  · simp only [exponential, Numeral.scale, Option.map_some, Option.getD_some, power, starts]
    cases rest with
    | nil => simp
    | cons second rest =>
      simp
      omega

/-! ### Reading back -/

private theorem ofMagnitude_magnitude (d : Double) : ofMagnitude d.negative d.magnitude = d := by
  obtain ⟨bits⟩ := d
  have below := bits.toNat_lt
  simp only [ofMagnitude, negative, magnitude, Nat.pow_eq, decide_eq_true_eq, Double.mk.injEq]
  split
  · rw [← UInt64.toNat_inj, UInt64.toNat_ofNat']
    omega
  · rw [← UInt64.toNat_inj, UInt64.toNat_ofNat']
    omega

private theorem numeral_of_zero {d : Double} (zero : d.magnitude = 0) (layout : Layout) :
    d.numeral layout =
      { negative := d.negative, whole := [0], fraction := some [0], exponent := none } := by
  simp [numeral, isZero, zero]

/-- Which of the two layouts is taken does not matter. -/
theorem numeral_cases {d : Double} (nonzero : d.magnitude ≠ 0) (layout : Layout) :
    d.numeral layout = positional d.negative (d.shortest layout.tie) ∨
      d.numeral layout = exponential layout d.negative (d.shortest layout.tie) := by
  rw [numeral, if_neg (by simpa [isZero] using nonzero)]
  -- The digits must not be computed here.
  generalize d.shortest layout.tie = s
  exact ite_eq_or_eq _ _ _

private theorem lays_numeral {d : Double} (finite : d.isFinite) (nonzero : d.magnitude ≠ 0)
    {layout : Layout} (signed : layout.positiveExponent ≠ .minus) :
    Lays (d.numeral layout) (d.shortest layout.tie) := by
  have read := fewestDigits_readsBack finite nonzero layout.tie
  have leads : (d.shortest layout.tie).Leads := by
    apply leads_shortest
    intro zero
    simp [readsBack, decimalMagnitude?, zero, Ne.symm nonzero] at read
  rcases numeral_cases nonzero layout with laid | laid
  · rw [laid]
    exact lays_positional leads _
  · rw [laid]
    exact lays_exponential leads signed _

theorem isValid_numeral {d : Double} (finite : d.isFinite) {layout : Layout}
    (signed : layout.positiveExponent ≠ .minus) : (d.numeral layout).IsValid := by
  by_cases zero : d.magnitude = 0
  · rw [numeral_of_zero zero]
    exact ⟨rfl, by simp, by simp⟩
  · exact (lays_numeral finite zero signed).1

private theorem negative_numeral (d : Double) (layout : Layout) :
    (d.numeral layout).negative = d.negative := by
  have by_position : ∀ s : Shortest, (positional d.negative s).negative = d.negative := fun _ => rfl
  have by_power : ∀ s : Shortest, (exponential layout d.negative s).negative = d.negative :=
    fun _ => rfl
  by_cases zero : d.magnitude = 0
  · rw [numeral_of_zero zero]
  · rcases numeral_cases zero layout with laid | laid
    · rw [laid, by_position]
    · rw [laid, by_power]

theorem ofNumeral?_numeral {d : Double} (finite : d.isFinite) {layout : Layout}
    (signed : layout.positiveExponent ≠ .minus) : ofNumeral? (d.numeral layout) = some d := by
  have magnitude : decimalMagnitude? (d.numeral layout).mantissa (d.numeral layout).scale =
      some d.magnitude := by
    by_cases zero : d.magnitude = 0
    · rw [numeral_of_zero zero, zero]
      rfl
    · have read := fewestDigits_readsBack finite zero layout.tie
      rw [decimalMagnitude?_congr
        ((lays_numeral finite zero signed).2.trans (number_shortest d layout.tie))]
      exact of_decide_eq_true read
  rw [ofNumeral?, magnitude, negative_numeral, Option.map_some, ofMagnitude_magnitude]

end FlowIR.Double
