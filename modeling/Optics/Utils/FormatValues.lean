import Optics.Utils.Formats
import Mathlib.Algebra.Order.Floor.Ring
import Mathlib.Tactic.FieldSimp
import Mathlib.Tactic.Linarith
import Mathlib.Tactic.Positivity
import Mathlib.Tactic.Ring

/-! # The values of printed doubles

What is lost by `%g`: the printed number is the one with the six digits of `significant`
(`numeralG_value`), and differs from the double by at most half a unit of the sixth digit of the
double (`numeralG_near`). A zero is printed as a zero. -/

namespace Optics.Utils.FormatValues

open Optics.Lib.Decimals Optics.Lib.JsonText Optics.Utils.Formats

/-! ### Digits -/

theorem length_lastDigits (m k : ℕ) : (lastDigits m k).length = k := by
  simp [lastDigits]

theorem lastDigits_succ (m k : ℕ) :
    lastDigits m (k + 1) = lastDigits (m / 10) k ++ [digitByte (m % 10)] := by
  unfold lastDigits
  rw [List.range_succ, List.map_append, List.map_singleton]
  congr 1
  · refine List.map_congr_left fun i hi => ?_
    have hlt : i < k := List.mem_range.mp hi
    rw [Nat.div_div_eq_div_mul, ← Nat.pow_succ']
    congr 3
    congr 1
    omega
  · simp

theorem valueOf_lastDigits (m k : ℕ) : valueOf (lastDigits m k) = m % 10 ^ k := by
  induction k generalizing m with
  | zero => simp [lastDigits, valueOf, Nat.mod_one]
  | succ k ih =>
    have hdigit : digitOf (digitByte (m % 10)) = m % 10 :=
      digitOf_digitByte (Nat.mod_lt _ (by decide))
    rw [lastDigits_succ, valueOf_append_singleton, ih, hdigit, Nat.pow_succ', Nat.mod_mul]
    omega

/-- The fraction with these digits. -/
def fracOf (ds : List UInt8) : ℚ := (valueOf ds : ℚ) / 10 ^ ds.length

theorem fracOf_zero (ds : List UInt8) : fracOf (ds ++ [48]) = fracOf ds := by
  have hzero : digitOf 48 = 0 := rfl
  unfold fracOf
  rw [valueOf_append_singleton, hzero, List.length_append, List.length_singleton, pow_succ]
  push_cast
  field_simp
  ring

theorem fracOf_stripZeros (ds : List UInt8) : fracOf (stripZeros ds) = fracOf ds := by
  induction ds using List.reverseRecOn with
  | nil => rfl
  | append_singleton ds c ih =>
    unfold stripZeros at ih ⊢
    by_cases hc : c = 48
    · rw [List.rdropWhile_concat_pos _ _ _ (by simp [hc]), ih, hc, fracOf_zero]
    · rw [List.rdropWhile_concat_neg _ _ _ (by simp [hc])]

theorem fracOf_lastDigits (m k : ℕ) :
    fracOf (stripZeros (lastDigits m k)) = (m % 10 ^ k : ℕ) / 10 ^ k := by
  rw [fracOf_stripZeros, fracOf, valueOf_lastDigits, length_lastDigits]

theorem fracValue_eq (n : Numeral) : n.fracValue = fracOf n.frac := by
  unfold Numeral.fracValue fracOf
  split_ifs with h
  · simp [h, valueOf]
  · rfl

theorem div_add_fracOf (m k : ℕ) :
    ((m / 10 ^ k : ℕ) : ℚ) + fracOf (stripZeros (lastDigits m k)) = m / 10 ^ k := by
  have hpow : (10 : ℚ) ^ k ≠ 0 := by positivity
  have hdiv : 10 ^ k * (m / 10 ^ k) + m % 10 ^ k = m := Nat.div_add_mod m (10 ^ k)
  have hcast : (10 : ℚ) ^ k * (m / 10 ^ k : ℕ) + (m % 10 ^ k : ℕ) = m := by exact_mod_cast hdiv
  rw [fracOf_lastDigits]
  field_simp
  linarith

theorem valueOf_exponent (n : ℕ) : valueOf (exponent n) = n := by
  unfold exponent
  split_ifs with h
  · rw [valueOf, List.foldl_cons, List.foldl_cons, List.foldl_nil, digitOf_digitByte h]
    simp [digitOf]
  · exact valueOf_decimal n

/-! ### Rounding -/

theorem roundEven_near (q : ℚ) : |(roundEven q : ℚ) - q| ≤ 1 / 2 := by
  have hlo := Int.floor_le q
  have hhi := Int.lt_floor_add_one q
  unfold roundEven
  dsimp only
  split_ifs with h
  · have hr : q - ⌊q⌋ ≤ 1 / 2 := by
      rcases h with h | h
      · exact h.le
      · exact h.1.le
    rw [abs_le]
    constructor <;> linarith
  · have hr : 1 / 2 ≤ q - ⌊q⌋ := by
      by_contra hlt
      exact h (Or.inl (not_le.mp hlt))
    push_cast
    rw [abs_le]
    constructor <;> linarith

theorem roundEven_between {q : ℚ} {a b : ℤ} (ha : (a : ℚ) ≤ q) (hb : q < b) :
    a ≤ roundEven q ∧ roundEven q ≤ b := by
  have hfloor : a ≤ ⌊q⌋ := Int.le_floor.mpr ha
  have hceil : ⌊q⌋ < b := Int.floor_lt.mpr hb
  unfold roundEven
  dsimp only
  split_ifs <;> omega

theorem ten_zpow_pos (x : ℤ) : (0 : ℚ) < 10 ^ x := zpow_pos (by norm_num) x

theorem ten_zpow_mul (x y : ℤ) : (10 : ℚ) ^ x * 10 ^ y = 10 ^ (x + y) :=
  (zpow_add₀ (by norm_num) x y).symm

theorem scaled_between {q : ℚ} (h : 0 < q) :
    ((10 ^ 5 : ℤ) : ℚ) ≤ q * 10 ^ (5 - Int.log 10 q) ∧
      q * 10 ^ (5 - Int.log 10 q) < ((10 ^ 6 : ℤ) : ℚ) := by
  have hlow : (10 : ℚ) ^ Int.log 10 q ≤ q := by
    exact_mod_cast Int.zpow_log_le_self (b := 10) (by decide) h
  have hhigh : q < (10 : ℚ) ^ (Int.log 10 q + 1) := by
    exact_mod_cast Int.lt_zpow_succ_log_self (b := 10) (by decide) q
  have hscale := ten_zpow_pos (5 - Int.log 10 q)
  constructor
  · calc ((10 ^ 5 : ℤ) : ℚ) = 10 ^ Int.log 10 q * 10 ^ (5 - Int.log 10 q) := by
          rw [ten_zpow_mul, add_sub_cancel]
          norm_num
      _ ≤ q * 10 ^ (5 - Int.log 10 q) := mul_le_mul_of_nonneg_right hlow hscale.le
  · calc q * 10 ^ (5 - Int.log 10 q) < 10 ^ (Int.log 10 q + 1) * 10 ^ (5 - Int.log 10 q) :=
          mul_lt_mul_of_pos_right hhigh hscale
      _ = ((10 ^ 6 : ℤ) : ℚ) := by
          rw [ten_zpow_mul, show Int.log 10 q + 1 + (5 - Int.log 10 q) = 6 by ring]
          norm_num

theorem rescaled_near {q : ℚ} {x : ℤ} {m : ℕ} (h : roundEven (q * 10 ^ (5 - x)) = m) :
    |(m : ℚ) * 10 ^ (x - 5) - q| ≤ 10 ^ (x - 5) / 2 := by
  have hunit := ten_zpow_pos (x - 5)
  have hone : (10 : ℚ) ^ (5 - x) * 10 ^ (x - 5) = 1 := by
    rw [ten_zpow_mul]
    simp
  have hround := roundEven_near (q * 10 ^ (5 - x))
  rw [h, Int.cast_natCast] at hround
  calc |(m : ℚ) * 10 ^ (x - 5) - q| = |(m - q * 10 ^ (5 - x)) * 10 ^ (x - 5)| := by
        rw [sub_mul, mul_assoc, hone, mul_one]
    _ = |m - q * 10 ^ (5 - x)| * 10 ^ (x - 5) := by
        rw [abs_mul, abs_of_pos hunit]
    _ ≤ 1 / 2 * 10 ^ (x - 5) := mul_le_mul_of_nonneg_right hround hunit.le
    _ = 10 ^ (x - 5) / 2 := by ring

/-- **Six digits** of a positive number: they are at most half a unit of the last of them away from
it. -/
theorem significant_spec {q : ℚ} (h : 0 < q) : (significant q).1 < 10 ^ 6 ∧
    |(significant q).1 * 10 ^ ((significant q).2 - 5) - q| ≤ 10 ^ (Int.log 10 q - 5) / 2 := by
  obtain ⟨hlow, hhigh⟩ := scaled_between h
  obtain ⟨hge, hle⟩ := roundEven_between hlow hhigh
  obtain ⟨m, hm⟩ := Int.eq_ofNat_of_zero_le (le_trans (by decide) hge)
  have hnear := rescaled_near hm
  unfold significant
  dsimp only
  rw [hm, Int.toNat_natCast]
  split_ifs with hcarry
  · -- a one and zeros, of the next power of ten
    refine ⟨by norm_num, ?_⟩
    have hcarried : ((10 ^ 5 : ℕ) : ℚ) * 10 ^ (Int.log 10 q + 1 - 5) =
        (10 ^ 6 : ℕ) * 10 ^ (Int.log 10 q - 5) := by
      rw [show Int.log 10 q + 1 - 5 = Int.log 10 q - 5 + 1 by ring, zpow_add_one₀ (by norm_num)]
      push_cast
      ring
    rw [hcarried]
    rwa [hcarry] at hnear
  · exact ⟨by omega, hnear⟩

/-! ### Printed numbers -/

theorem value_eq (n : Numeral) :
    n.value = (if n.neg then -1 else 1) * ((n.int + fracOf n.frac) * n.scale) := by
  rw [Numeral.value, fracValue_eq]
  cases n.neg <;> simp

/-- The scale of the exponent that `%g` prints. -/
theorem exponent_scale (neg : Bool) (m : ℕ) (frac : List UInt8) (x : ℤ) :
    (⟨neg, m, frac, some (x < 0, exponent x.natAbs)⟩ : Numeral).scale = 10 ^ x := by
  unfold Numeral.scale
  dsimp only
  rw [valueOf_exponent]
  by_cases hx : x < 0
  · rw [if_pos (decide_eq_true hx), one_div, ← zpow_natCast, ← zpow_neg]
    congr 1
    omega
  · rw [if_neg (by simpa using hx), ← zpow_natCast]
    congr 1
    omega

theorem digits_eq {m k : ℕ} (h : m < 10 ^ k) :
    fracOf (stripZeros (lastDigits m k)) = m * 10 ^ (-k : ℤ) := by
  rw [fracOf_lastDigits, Nat.mod_eq_of_lt h, zpow_neg, zpow_natCast, div_eq_mul_inv]

/-- **The printed number** is the one with the six digits. -/
theorem numeralG_value (sign : Bool) {q : ℚ} (h : q ≠ 0) : (numeralG sign q).value =
    (if q < 0 then -1 else 1) * ((significant |q|).1 * 10 ^ ((significant |q|).2 - 5)) := by
  obtain ⟨hm, -⟩ := significant_spec (abs_pos.mpr h)
  unfold numeralG
  rw [if_neg h]
  generalize significant |q| = digits at hm ⊢
  obtain ⟨m, x⟩ := digits
  dsimp only at hm ⊢
  by_cases hexp : x < -4 ∨ 6 ≤ x
  · have hscale := exponent_scale (decide (q < 0)) (m / 10 ^ 5) (stripZeros (lastDigits m 5)) x
    have hpow : (10 : ℚ) ^ (x - 5) = 10 ^ x / 10 ^ 5 := zpow_sub₀ (by norm_num) x 5
    rw [if_pos hexp, value_eq, hscale, div_add_fracOf, hpow, mul_div_assoc', div_mul_eq_mul_div]
    simp only [decide_eq_true_eq]
  · rw [if_neg hexp]
    by_cases hpos : 0 ≤ x
    · have hpow : (10 : ℚ) ^ (x - 5) = (10 ^ (5 - x.toNat))⁻¹ := by
        rw [← zpow_natCast, ← zpow_neg]
        congr 1
        omega
      rw [if_pos hpos, value_eq, div_add_fracOf, hpow]
      simp [Numeral.scale, div_eq_mul_inv]
    · have hsix : 6 ≤ 5 + x.natAbs := by omega
      have hlt : m < 10 ^ (5 + x.natAbs) :=
        lt_of_lt_of_le hm (Nat.pow_le_pow_right (by decide) hsix)
      have hneg : (-(5 + x.natAbs : ℕ) : ℤ) = x - 5 := by omega
      rw [if_neg hpos, value_eq, digits_eq hlt, hneg]
      simp [Numeral.scale]

theorem numeralG_zero (sign : Bool) : (numeralG sign 0).value = 0 := by
  cases sign <;> simp [numeralG, Numeral.value, Numeral.fracValue]

/-- Half a unit of the sixth significant digit of a number other than zero. -/
def halfUnit (q : ℚ) : ℚ := 10 ^ (Int.log 10 |q| - 5) / 2

/-- **The printed number is near**: within half a unit of the sixth digit of the double. -/
theorem numeralG_near (sign : Bool) {q : ℚ} (h : q ≠ 0) :
    |(numeralG sign q).value - q| ≤ halfUnit q := by
  obtain ⟨-, hnear⟩ := significant_spec (abs_pos.mpr h)
  rw [numeralG_value sign h]
  set p : ℚ := (significant |q|).1 * 10 ^ ((significant |q|).2 - 5)
  by_cases hneg : q < 0
  · have hflip : -1 * p - q = -(p - |q|) := by
      rw [abs_of_neg hneg]
      ring
    rw [if_pos hneg, hflip, abs_neg]
    exact hnear
  · have hsame : p - q = p - |q| := by rw [abs_of_nonneg (not_lt.mp hneg)]
    rw [if_neg hneg, one_mul, hsame]
    exact hnear

end Optics.Utils.FormatValues
