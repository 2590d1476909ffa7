import FlowIR.Double.Basic
import FlowIR.Proofs.Decimal.Numeral
import Mathlib.Algebra.Order.Field.Power
import Mathlib.Data.Int.Log
import Mathlib.Data.Rat.Floor
import Mathlib.Tactic.FieldSimp
import Mathlib.Tactic.Linarith
import Mathlib.Tactic.Positivity
import Mathlib.Tactic.Ring

/-!
# The nearest double

Which number is read depends only on the fraction, not on how it is written. A fraction whose
distance to a finite number is less than one part in two to the power of 54 is read as this number,
also below a power of two, where the numbers lie twice as close.
-/
namespace FlowIR.Double

/-! ### Rounding to whole numbers -/

private theorem roundToEven_mul_right (num den : Nat) {factor : Nat} (positive : 0 < factor) :
    roundToEven (num * factor) (den * factor) = roundToEven num den := by
  have below : 2 * (num % den * factor) < den * factor ↔ 2 * (num % den) < den := by
    rw [← Nat.mul_assoc, Nat.mul_lt_mul_right positive]
  have above : den * factor < 2 * (num % den * factor) ↔ den < 2 * (num % den) := by
    rw [← Nat.mul_assoc, Nat.mul_lt_mul_right positive]
  simp only [roundToEven, Nat.mul_div_mul_right _ _ positive, Nat.mul_mod_mul_right, below, above]

private theorem roundToEven_eq_of_near {num den n : Nat} (positive : 0 < den)
    (near : |(num : ℚ) / den - n| < 1 / 2) :
    roundToEven num den = n := by
  have den_pos : (0 : ℚ) < den := by exact_mod_cast positive
  rw [abs_lt, lt_sub_iff_add_lt, sub_lt_iff_lt_add', lt_div_iff₀ den_pos,
    div_lt_iff₀ den_pos] at near
  -- Half a step below and half a step above, as whole numbers.
  have above : 2 * n * den < 2 * num + den := by
    have : (2 * n * den : ℚ) < 2 * num + den := by linarith [near.1]
    exact_mod_cast this
  have below : 2 * num < (2 * n + 1) * den := by
    have : (2 * num : ℚ) < (2 * n + 1) * den := by linarith [near.2]
    exact_mod_cast this
  have divided : num = num / den * den + num % den := by rw [Nat.mul_comm, Nat.div_add_mod]
  have remainder_lt : num % den < den := Nat.mod_lt _ positive
  simp only [roundToEven]
  -- The quotient is the number itself or the one before it, and the remainder tells which.
  generalize num / den = quotient, num % den = remainder at divided remainder_lt
  subst divided
  have lower : quotient ≤ n := by
    by_contra later
    have : (n + 1) * den ≤ quotient * den := Nat.mul_le_mul_right _ (by omega)
    linarith
  have upper : n ≤ quotient + 1 := by
    by_contra later
    have : (quotient + 2) * den ≤ n * den := Nat.mul_le_mul_right _ (by omega)
    linarith
  obtain rfl | rfl : n = quotient ∨ n = quotient + 1 := by omega
  · have : 2 * remainder < den := by linarith
    simp [this]
  · have : den < 2 * remainder := by linarith
    simp [this, this.not_gt]

/-! ### Fractions -/

theorem zpow_of_neg (base : ℚ) {exponent : Int} (negative : exponent < 0) :
    base ^ exponent = (base ^ exponent.natAbs)⁻¹ := by
  rw [← zpow_natCast, ← zpow_neg]
  congr 1
  omega

theorem zpow_of_not_neg (base : ℚ) {exponent : Int} (nonneg : ¬ exponent < 0) :
    base ^ exponent = base ^ exponent.natAbs := by
  rw [← zpow_natCast]
  congr 1
  omega

private theorem scaleDown_pos {den : Nat} (positive : 0 < den) (num : Nat) (exponent : Int) :
    0 < (scaleDown num den exponent).2 := by
  unfold scaleDown
  split
  · exact positive
  · exact Nat.mul_pos positive (Nat.pow_pos (by decide))

theorem scaleDown_eq (num den : Nat) (exponent : Int) :
    ((scaleDown num den exponent).1 : ℚ) / (scaleDown num den exponent).2 =
      num / den / 2 ^ exponent := by
  unfold scaleDown
  split
  next negative =>
    simp only [zpow_of_neg _ negative, Nat.pow_eq, Nat.cast_mul, Nat.cast_pow, Nat.cast_ofNat]
    field_simp
  next nonneg =>
    simp only [zpow_of_not_neg _ nonneg, Nat.pow_eq, Nat.cast_mul, Nat.cast_pow, Nat.cast_ofNat]
    field_simp

private theorem log2_bounds {n : Nat} (positive : 0 < n) :
    (2 : ℚ) ^ (n.log2 : Int) ≤ n ∧ (n : ℚ) < 2 ^ (n.log2 + 1 : Int) := by
  constructor
  · exact_mod_cast Nat.log2_self_le positive.ne'
  · exact_mod_cast Nat.lt_log2_self

private theorem lt_two_zpow_iff {x : ℚ} (positive : 0 < x) (exponent : Int) :
    x < 2 ^ exponent ↔ Int.log 2 x < exponent := by
  exact_mod_cast Int.lt_zpow_iff_log_lt (b := 2) (by decide) positive

private theorem two_zpow_le_iff {x : ℚ} (positive : 0 < x) (exponent : Int) :
    2 ^ exponent ≤ x ↔ exponent ≤ Int.log 2 x := by
  exact_mod_cast Int.zpow_le_iff_le_log (b := 2) (by decide) positive

/-- The quotient of the scaled fraction is compared, which loses nothing against a whole number. -/
theorem scaleDown_div_lt_iff (num : Nat) {den : Nat} (den_pos : 0 < den) (exponent : Int)
    (bits : Nat) :
    (scaleDown num den exponent).1 / (scaleDown num den exponent).2 < 2 ^ bits ↔
      (num / den : ℚ) < 2 ^ (exponent + bits) := by
  have scaled_pos : (0 : ℚ) < (scaleDown num den exponent).2 := by
    exact_mod_cast scaleDown_pos den_pos num exponent
  have power_pos : (0 : ℚ) < 2 ^ exponent := by positivity
  rw [zpow_add₀ (by norm_num), zpow_natCast, mul_comm, ← div_lt_iff₀ power_pos, ← scaleDown_eq,
    div_lt_iff₀ scaled_pos, Nat.div_lt_iff_lt_mul (scaleDown_pos den_pos num exponent)]
  exact_mod_cast Iff.rfl

/-- The estimate from the lengths of the two numbers is right or one too large. -/
theorem targetExponent_eq {num den : Nat} (num_pos : 0 < num) (den_pos : 0 < den) :
    targetExponent num den = max (Int.log 2 (num / den : ℚ) - 52) (-1074) := by
  have ratio_pos : (0 : ℚ) < num / den := by positivity
  have den_cast_pos : (0 : ℚ) < den := by positivity
  have num_bounds := log2_bounds num_pos
  have den_bounds := log2_bounds den_pos
  -- The difference of the lengths misses the logarithm by at most one.
  have log_lt : Int.log 2 (num / den : ℚ) < num.log2 - den.log2 + 1 := by
    rw [← lt_two_zpow_iff ratio_pos, div_lt_iff₀ den_cast_pos]
    calc (num : ℚ) < 2 ^ (num.log2 + 1 : Int) := num_bounds.2
      _ = 2 ^ ((num.log2 : Int) - den.log2 + 1) * 2 ^ (den.log2 : Int) := by
        rw [← zpow_add₀ (by norm_num)]
        congr 1
        omega
      _ ≤ _ := mul_le_mul_of_nonneg_left den_bounds.1 (by positivity)
  have le_log : (num.log2 : Int) - den.log2 - 1 ≤ Int.log 2 (num / den : ℚ) := by
    rw [← two_zpow_le_iff ratio_pos, le_div_iff₀ den_cast_pos]
    calc _ ≤ (2 : ℚ) ^ ((num.log2 : Int) - den.log2 - 1) * 2 ^ (den.log2 + 1 : Int) :=
        mul_le_mul_of_nonneg_left den_bounds.2.le (by positivity)
      _ = 2 ^ (num.log2 : Int) := by
        rw [← zpow_add₀ (by norm_num)]
        congr 1
        omega
      _ ≤ num := num_bounds.1
  have too_large := scaleDown_div_lt_iff num den_pos (num.log2 - den.log2 - 52) 52
  rw [lt_two_zpow_iff ratio_pos] at too_large
  simp only [targetExponent, Nat.pow_eq, too_large]
  split <;> omega

private theorem roundToEven_congr {num den num' den' : Nat} (den_pos : 0 < den)
    (den_pos' : 0 < den') (same : (num / den : ℚ) = num' / den') :
    roundToEven num den = roundToEven num' den' := by
  rw [div_eq_div_iff (by positivity) (by positivity)] at same
  have crossed : num * den' = num' * den := by exact_mod_cast same
  rw [← roundToEven_mul_right num den den_pos', crossed, Nat.mul_comm den,
    roundToEven_mul_right num' den' den_pos]

/-- Only the fraction counts, not the numbers it is written with. -/
theorem nearestMagnitude?_congr {num den num' den' : Nat} (num_pos : 0 < num) (den_pos : 0 < den)
    (num_pos' : 0 < num') (den_pos' : 0 < den') (same : (num / den : ℚ) = num' / den') :
    nearestMagnitude? num den = nearestMagnitude? num' den' := by
  have target : targetExponent num den = targetExponent num' den' := by
    rw [targetExponent_eq num_pos den_pos, targetExponent_eq num_pos' den_pos', same]
  have rounded : ∀ exponent,
      roundToEven (scaleDown num den exponent).1 (scaleDown num den exponent).2 =
      roundToEven (scaleDown num' den' exponent).1 (scaleDown num' den' exponent).2 := by
    intro exponent
    apply roundToEven_congr (scaleDown_pos den_pos _ _) (scaleDown_pos den_pos' _ _)
    rw [scaleDown_eq, scaleDown_eq, same]
  simp only [nearestMagnitude?, target, rounded]

private theorem nearestMagnitude?_eq {num den significand : Nat} {exponent : Int}
    (den_pos : 0 < den) (target : targetExponent num den = exponent)
    (near : |(num / den : ℚ) / 2 ^ exponent - significand| < 1 / 2)
    (small : (exponent + 1074).toNat * 2 ^ 52 + significand < 2047 * 2 ^ 52) :
    nearestMagnitude? num den = some ((exponent + 1074).toNat * 2 ^ 52 + significand) := by
  rw [← scaleDown_eq] at near
  have rounded := roundToEven_eq_of_near (scaleDown_pos den_pos _ _) near
  simp only [nearestMagnitude?, target, rounded, Nat.pow_eq, small, if_true]

/-! ### Finite numbers -/

/-- The number without its sign. -/
def absValue (d : Double) : ℚ := d.significand * 2 ^ d.exponent

private theorem magnitude_lt {d : Double} (finite : d.isFinite) : d.magnitude < 2047 * 2 ^ 52 := by
  have : d.magnitude / 2 ^ 52 < 2047 := of_decide_eq_true finite
  omega

private theorem le_exponent (d : Double) : -1074 ≤ d.exponent := by
  simp only [exponent]
  omega

private theorem significand_lt (d : Double) : d.significand < 2 ^ 53 := by
  unfold significand
  split
  next least =>
    have : d.magnitude / 2 ^ 52 = 0 := least
    omega
  next =>
    rw [Nat.pow_eq]
    omega

private theorem le_significand {d : Double} (normal : -1074 < d.exponent) :
    2 ^ 52 ≤ d.significand := by
  simp only [exponent] at normal
  unfold significand
  split
  · omega
  · exact Nat.le_add_left _ _

private theorem magnitude_eq (d : Double) :
    (d.exponent + 1074).toNat * 2 ^ 52 + d.significand = d.magnitude := by
  have biased : d.biasedExponent = d.magnitude / 2 ^ 52 := rfl
  simp only [exponent]
  unfold significand
  split
  · omega
  · rw [Nat.pow_eq]
    omega

private theorem significand_pos {d : Double} (nonzero : d.magnitude ≠ 0) : 0 < d.significand := by
  have split := d.magnitude_eq
  by_cases normal : -1074 < d.exponent
  · have := le_significand normal
    omega
  · have := d.le_exponent
    omega

section

variable {num den : Nat} {d : Double} {units : ℚ} (num_pos : 0 < num) (den_pos : 0 < den)
  (finite : d.isFinite) (counted : (num / den : ℚ) = units * 2 ^ d.exponent)
  (near : |units - d.significand| * 2 ^ 54 < d.significand)

include num_pos den_pos counted

private theorem log_lt_iff_units_lt (bits : Nat) :
    Int.log 2 (num / den : ℚ) < d.exponent + bits ↔ units < 2 ^ bits := by
  have unit_pos : (0 : ℚ) < 2 ^ d.exponent := by positivity
  rw [← lt_two_zpow_iff (by positivity), counted, zpow_add₀ (by norm_num), mul_comm, zpow_natCast]
  exact mul_lt_mul_iff_right₀ unit_pos

include finite near

/-- Where the fraction has as many bits as the number, it is rounded in units of the number. -/
theorem nearestMagnitude?_of_unit (unit : d.exponent = -1074 ∨ 2 ^ 52 ≤ units) :
    nearestMagnitude? num den = some d.magnitude := by
  have significand_lt : (d.significand : ℚ) < 2 ^ 53 := by exact_mod_cast d.significand_lt
  -- The next power of two is a whole unit away, and the distance is less than half of one.
  have one_less : (d.significand : ℚ) + 1 ≤ 2 ^ 53 := by exact_mod_cast d.significand_lt
  have not_above : units < 2 ^ 53 := by linarith [le_abs_self (units - d.significand)]
  have target : targetExponent num den = d.exponent := by
    have found := targetExponent_eq num_pos den_pos
    have upper := (log_lt_iff_units_lt num_pos den_pos counted 53).mpr not_above
    have lower := log_lt_iff_units_lt num_pos den_pos counted 52
    have least := d.le_exponent
    rcases unit with smallest | full
    · omega
    · have := lower.not.mpr full.not_gt
      omega
  rw [← d.magnitude_eq]
  apply nearestMagnitude?_eq den_pos target
  · rw [counted, mul_div_cancel_right₀ _ (by positivity)]
    linarith
  · have := magnitude_lt finite
    rwa [d.magnitude_eq]

/-- Just below a power of two the fraction has one bit more, and is rounded up to the power. -/
theorem nearestMagnitude?_of_halfUnit (normal : -1074 < d.exponent) (below : units < 2 ^ 52) :
    nearestMagnitude? num den = some d.magnitude := by
  have error_below := neg_abs_le (units - d.significand)
  -- Any other significand of a normal number is a whole unit above the power.
  have power : d.significand = 2 ^ 52 := by
    have := le_significand normal
    by_contra other
    have : 2 ^ 52 + 1 ≤ d.significand := by omega
    have : (2 : ℚ) ^ 52 + 1 ≤ d.significand := by exact_mod_cast this
    linarith
  have power_cast : (d.significand : ℚ) = 2 ^ 52 := by exact_mod_cast power
  have target : targetExponent num den = d.exponent - 1 := by
    have found := targetExponent_eq num_pos den_pos
    have upper := (log_lt_iff_units_lt num_pos den_pos counted 52).mpr below
    have lower := (log_lt_iff_units_lt num_pos den_pos counted 51).not.mpr (by linarith)
    omega
  -- Rounding carries into the exponent, which the sum of both takes care of.
  have magnitude : (d.exponent - 1 + 1074).toNat * 2 ^ 52 + 2 ^ 53 = d.magnitude := by
    have carried : (d.exponent + 1074).toNat = (d.exponent - 1 + 1074).toNat + 1 := by omega
    rw [← d.magnitude_eq, carried, power]
    ring
  rw [← magnitude]
  apply nearestMagnitude?_eq den_pos target
  · have twice : units * 2 ^ d.exponent / 2 ^ (d.exponent - 1) = 2 * units := by
      rw [zpow_sub_one₀ (by norm_num)]
      field_simp
    have doubled : |2 * units - 2 ^ 53| = 2 * |units - d.significand| := by
      rw [power_cast, ← abs_two, ← abs_mul, abs_two]
      ring_nf
    rw [counted, twice, Nat.cast_pow, Nat.cast_ofNat, doubled]
    linarith
  · rw [magnitude]
    exact magnitude_lt finite

end

/-- A fraction that differs from a finite number by less than one part in two to the power of 54. -/
theorem nearestMagnitude?_of_near {num den : Nat} {d : Double} (num_pos : 0 < num)
    (den_pos : 0 < den) (finite : d.isFinite)
    (near : |(num / den : ℚ) - d.absValue| * 2 ^ 54 < d.absValue) :
    nearestMagnitude? num den = some d.magnitude := by
  have unit_pos : (0 : ℚ) < 2 ^ d.exponent := by positivity
  obtain ⟨units, counted⟩ : ∃ units : ℚ, (num / den : ℚ) = units * 2 ^ d.exponent :=
    ⟨num / den / 2 ^ d.exponent, by field_simp⟩
  have units_near : |units - d.significand| * 2 ^ 54 < d.significand := by
    rw [counted, absValue, ← sub_mul, abs_mul, abs_of_pos unit_pos, mul_right_comm] at near
    exact lt_of_mul_lt_mul_right near unit_pos.le
  by_cases halved : -1074 < d.exponent ∧ units < 2 ^ 52
  · exact nearestMagnitude?_of_halfUnit num_pos den_pos finite counted units_near halved.1 halved.2
  · have least := d.le_exponent
    apply nearestMagnitude?_of_unit num_pos den_pos finite counted units_near
    grind

/-! ### Decimals -/

private theorem lt_ten_zpow_iff {x : ℚ} (positive : 0 < x) (exponent : Int) :
    x < 10 ^ exponent ↔ Int.log 10 x < exponent := by
  exact_mod_cast Int.lt_zpow_iff_log_lt (b := 10) (by decide) positive

theorem ten_zpow_le_iff {x : ℚ} (positive : 0 < x) (exponent : Int) :
    10 ^ exponent ≤ x ↔ exponent ≤ Int.log 10 x := by
  exact_mod_cast Int.zpow_le_iff_le_log (b := 10) (by decide) positive

/-- The place of the first digit is the logarithm, wherever the point stands. -/
theorem length_digits_eq {mantissa : Nat} (nonzero : mantissa ≠ 0) (scale : Int) :
    scale + (Decimal.digits mantissa).length = Int.log 10 ((mantissa : ℚ) * 10 ^ scale) + 1 := by
  have positive : (0 : ℚ) < mantissa * 10 ^ scale := by positivity
  have scale_pos : (0 : ℚ) < 10 ^ scale := by positivity
  obtain ⟨first, rest, split, -⟩ := Decimal.digits_eq_cons mantissa
  have below : (mantissa : ℚ) * 10 ^ scale < 10 ^ (scale + (Decimal.digits mantissa).length) := by
    have := Decimal.value_lt (Decimal.digits mantissa)
    rw [Decimal.value_digits] at this
    have : (mantissa : ℚ) < 10 ^ (Decimal.digits mantissa).length := by exact_mod_cast this
    rw [zpow_add₀ (by norm_num), zpow_natCast, mul_comm]
    exact mul_lt_mul_of_pos_left this scale_pos
  have above : (10 : ℚ) ^ (scale + (Decimal.digits mantissa).length - 1) ≤
      mantissa * 10 ^ scale := by
    have : (10 : ℚ) ^ ((Decimal.digits mantissa).length - 1) ≤ mantissa := by
      exact_mod_cast Decimal.pow_length_digits_le nonzero
    rw [split] at this ⊢
    rw [List.length_cons, Nat.cast_succ, ← add_assoc, add_sub_cancel_right, zpow_add₀ (by norm_num),
      zpow_natCast, mul_comm]
    exact mul_le_mul_of_nonneg_right this scale_pos.le
  rw [lt_ten_zpow_iff positive] at below
  rw [ten_zpow_le_iff positive] at above
  omega

/-- A decimal is read as a fraction of whole numbers, unless its first digit is too far from the
point. -/
theorem decimalMagnitude?_eq {mantissa : Nat} (nonzero : mantissa ≠ 0) (scale : Int) :
    ∃ num den : Nat, 0 < num ∧ 0 < den ∧ (num / den : ℚ) = mantissa * 10 ^ scale ∧
      decimalMagnitude? mantissa scale =
        if 400 < Int.log 10 ((mantissa : ℚ) * 10 ^ scale) + 1 then none
        else if Int.log 10 ((mantissa : ℚ) * 10 ^ scale) + 1 < -400 then some 0
        else nearestMagnitude? num den := by
  have power_pos : 0 < 10 ^ scale.natAbs := Nat.pow_pos (by decide)
  by_cases negative : scale < 0
  · refine ⟨mantissa, 10 ^ scale.natAbs, Nat.pos_of_ne_zero nonzero, power_pos, ?_, ?_⟩
    · simp [zpow_of_neg _ negative, div_eq_mul_inv]
    · simp [decimalMagnitude?, nonzero, negative, length_digits_eq nonzero]
  · refine ⟨mantissa * 10 ^ scale.natAbs, 1, Nat.mul_pos (Nat.pos_of_ne_zero nonzero) power_pos,
      one_pos, ?_, ?_⟩
    · simp [zpow_of_not_neg _ negative]
    · simp [decimalMagnitude?, nonzero, negative, length_digits_eq nonzero]

theorem decimalMagnitude?_congr {mantissa mantissa' : Nat} {scale scale' : Int}
    (same : (mantissa : ℚ) * 10 ^ scale = mantissa' * 10 ^ scale') :
    decimalMagnitude? mantissa scale = decimalMagnitude? mantissa' scale' := by
  have zero_iff : mantissa = 0 ↔ mantissa' = 0 := by
    have : (mantissa : ℚ) * 10 ^ scale = 0 ↔ (mantissa' : ℚ) * 10 ^ scale' = 0 := by rw [same]
    simpa [zpow_ne_zero] using this
  by_cases zero : mantissa = 0
  · simp [decimalMagnitude?, zero, zero_iff.mp zero]
  · obtain ⟨num, den, num_pos, den_pos, ratio, read⟩ := decimalMagnitude?_eq zero scale
    obtain ⟨num', den', num_pos', den_pos', ratio', read'⟩ :=
      decimalMagnitude?_eq (zero_iff.not.mp zero) scale'
    have nearest : nearestMagnitude? num den = nearestMagnitude? num' den' :=
      nearestMagnitude?_congr num_pos den_pos num_pos' den_pos' (by rw [ratio, ratio', same])
    rw [read, read', nearest, same]

/-! ### How far finite numbers reach -/

private theorem absValue_lt {d : Double} (finite : d.isFinite) : d.absValue < 2 ^ (1024 : Int) := by
  have significand_lt : (d.significand : ℚ) < 2 ^ (53 : Int) := by exact_mod_cast d.significand_lt
  have exponent_le : d.exponent ≤ 971 := by
    have biased : d.biasedExponent < 2047 := of_decide_eq_true finite
    simp only [exponent]
    omega
  calc d.absValue < 2 ^ (53 : Int) * 2 ^ d.exponent :=
    mul_lt_mul_of_pos_right significand_lt (by positivity)
    _ ≤ 2 ^ (53 : Int) * 2 ^ (971 : Int) := by gcongr; norm_num
    _ = 2 ^ (1024 : Int) := by rw [← zpow_add₀ (by norm_num)]; norm_num

theorem le_absValue {d : Double} (nonzero : d.magnitude ≠ 0) : 2 ^ (-1074 : Int) ≤ d.absValue := by
  have one_le : (1 : ℚ) ≤ d.significand := by exact_mod_cast significand_pos nonzero
  calc (2 : ℚ) ^ (-1074 : Int) ≤ 2 ^ d.exponent := zpow_le_zpow_right₀ (by norm_num) d.le_exponent
    _ ≤ d.significand * 2 ^ d.exponent := le_mul_of_one_le_left (by positivity) one_le

/-- A decimal that differs from a finite number by less than one part in two to the power of 54. -/
theorem decimalMagnitude?_of_near {mantissa : Nat} {scale : Int} {d : Double} (finite : d.isFinite)
    (nonzero : d.magnitude ≠ 0)
    (near : |(mantissa : ℚ) * 10 ^ scale - d.absValue| * 2 ^ 54 < d.absValue) :
    decimalMagnitude? mantissa scale = some d.magnitude := by
  have above := absValue_lt finite
  have below := le_absValue nonzero
  obtain ⟨lower, upper⟩ := abs_le.mp (le_refl |(mantissa : ℚ) * 10 ^ scale - d.absValue|)
  have positive : (0 : ℚ) < d.absValue := lt_of_lt_of_le (by positivity) below
  have not_zero : mantissa ≠ 0 := by
    rintro rfl
    simp only [Nat.cast_zero, zero_mul, zero_sub, abs_neg, abs_of_pos positive] at near
    linarith
  -- A factor of two is more than enough to stay clear of the places where the reader stops looking.
  have at_most : (mantissa : ℚ) * 10 ^ scale ≤ d.absValue * 2 := by linarith
  have at_least : d.absValue ≤ (mantissa : ℚ) * 10 ^ scale * 2 := by linarith
  obtain ⟨num, den, num_pos, den_pos, ratio, read⟩ := decimalMagnitude?_eq not_zero scale
  have value_pos : (0 : ℚ) < mantissa * 10 ^ scale := by positivity
  have not_above : Int.log 10 ((mantissa : ℚ) * 10 ^ scale) < 400 := by
    rw [← lt_ten_zpow_iff value_pos]
    have powers : 2 ^ 1024 * 2 ≤ 10 ^ 400 := by decide +kernel
    calc (mantissa : ℚ) * 10 ^ scale ≤ d.absValue * 2 := at_most
      _ < 2 ^ (1024 : Int) * 2 := mul_lt_mul_of_pos_right above (by norm_num)
      _ ≤ 10 ^ (400 : Int) := by exact_mod_cast powers
  have not_below : -401 ≤ Int.log 10 ((mantissa : ℚ) * 10 ^ scale) := by
    rw [← ten_zpow_le_iff value_pos]
    have powers : 2 * 2 ^ 1074 ≤ 10 ^ 401 := by decide +kernel
    have smaller : (10 : ℚ) ^ (-401 : Int) * 2 ≤ 2 ^ (-1074 : Int) := by
      rw [zpow_neg, zpow_neg, inv_mul_le_iff₀ (by positivity), le_mul_inv_iff₀ (by positivity)]
      exact_mod_cast powers
    exact le_of_mul_le_mul_right ((smaller.trans below).trans at_least) (by norm_num)
  rw [read, if_neg (by omega), if_neg (by omega)]
  apply nearestMagnitude?_of_near num_pos den_pos finite
  rw [ratio]
  exact near

end FlowIR.Double
