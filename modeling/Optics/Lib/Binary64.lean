import Mathlib.Data.Int.Log
import Mathlib.Data.Rat.Floor
import Mathlib.Tactic.Linarith

/-! # Rounding to 53 bits

A rational number is rounded to the nearest one with 53 bits, of two to the one with an even last
bit, as the arithmetic of binary64 does; below `2^-1022` the last place stays where it is. The range
has no end here.

`round53_lt_zpow_iff` tells when a number is rounded up to a power of two. -/

namespace Optics.Lib.Binary64

/-! ### The nearest integer -/

/-- The nearest integer, the even one of two. -/
def nearest (x : ℚ) : ℤ :=
  let r := x - ⌊x⌋
  if r < 1 / 2 ∨ (r = 1 / 2 ∧ ⌊x⌋ % 2 = 0) then ⌊x⌋ else ⌊x⌋ + 1

theorem le_nearest {x : ℚ} {n : ℤ} (h : (n : ℚ) ≤ x) : n ≤ nearest x := by
  have hfloor : n ≤ ⌊x⌋ := Int.le_floor.mpr h
  unfold nearest
  dsimp only
  split_ifs
  · exact hfloor
  · omega

theorem nearest_le {x : ℚ} {n : ℤ} (h : x ≤ n) : nearest x ≤ n := by
  have hfloor : ⌊x⌋ ≤ n := Int.floor_le_iff.mpr (lt_of_le_of_lt h (lt_add_one _))
  unfold nearest
  dsimp only
  split_ifs with hr
  · exact hfloor
  · -- an integer is not rounded up
    have hne : ⌊x⌋ ≠ n := fun heq => by
      have hle := Int.floor_le x
      rw [heq] at hle
      refine hr (Or.inl ?_)
      rw [heq, le_antisymm h hle, sub_self]
      norm_num
    omega

/-- A number is rounded up to an even integer from half a unit below it on. -/
theorem nearest_lt_iff {x : ℚ} {n : ℤ} (hn : n % 2 = 0) : nearest x < n ↔ x < n - 1 / 2 := by
  have hle := Int.floor_le x
  have hlt := Int.lt_floor_add_one x
  rcases lt_trichotomy ⌊x⌋ (n - 1) with hbelow | heq | habove
  · have hcast : (⌊x⌋ : ℚ) + 1 ≤ n - 1 := by exact_mod_cast (by omega : ⌊x⌋ + 1 ≤ n - 1)
    have hnear : nearest x ≤ ⌊x⌋ + 1 := nearest_le (by push_cast; exact hlt.le)
    constructor
    · intro _
      linarith
    · intro _
      omega
  · have hcast : (⌊x⌋ : ℚ) = n - 1 := by exact_mod_cast heq
    have hodd : ¬ ⌊x⌋ % 2 = 0 := by omega
    unfold nearest
    dsimp only
    split_ifs with hr
    · have hhalf : x - ⌊x⌋ < 1 / 2 := hr.resolve_right fun h => hodd h.2
      constructor
      · intro _
        linarith
      · intro _
        omega
    · constructor
      · intro h
        omega
      · intro h
        exact absurd (Or.inl (by linarith)) hr
  · have hcast : (n : ℚ) ≤ ⌊x⌋ := by exact_mod_cast (by omega : n ≤ ⌊x⌋)
    have hnear : n ≤ nearest x := le_nearest (hcast.trans hle)
    constructor
    · intro h
      omega
    · intro h
      linarith

/-! ### Rounding -/

/-- The exponent of a number, and that of the smallest normal one below. -/
def exponent (x : ℚ) : ℤ := max (Int.log 2 |x|) (-1022)

/-- The unit of the last place. -/
def ulp (x : ℚ) : ℚ := 2 ^ (exponent x - 52)

/-- The number with 53 bits. -/
def round53 (x : ℚ) : ℚ := nearest (x / ulp x) * ulp x

theorem ulp_pos (x : ℚ) : 0 < ulp x := zpow_pos (by norm_num) _

theorem round53_nonneg {x : ℚ} (h : 0 ≤ x) : 0 ≤ round53 x := by
  have hnear : 0 ≤ nearest (x / ulp x) :=
    le_nearest (by exact_mod_cast div_nonneg h (ulp_pos x).le)
  exact mul_nonneg (by exact_mod_cast hnear) (ulp_pos x).le

theorem zpow_two_split (a b : ℤ) : (2 : ℚ) ^ a = 2 ^ (a - b) * 2 ^ b := by
  rw [← zpow_add₀ (by norm_num), sub_add_cancel]

theorem exists_int_zpow {a : ℤ} (h : 0 ≤ a) : ∃ n : ℤ, (2 : ℚ) ^ a = n := by
  obtain ⟨m, rfl⟩ := Int.eq_ofNat_of_zero_le h
  exact ⟨2 ^ m, by push_cast; exact zpow_natCast _ _⟩

theorem round53_le_zpow {x : ℚ} {k : ℤ} (hk : exponent x ≤ k) (h : x ≤ 2 ^ k) :
    round53 x ≤ 2 ^ k := by
  obtain ⟨n, hn⟩ := exists_int_zpow (a := k - (exponent x - 52)) (by omega)
  have hpow : (2 : ℚ) ^ k = n * ulp x := by rw [ulp, ← hn, ← zpow_two_split]
  rw [hpow] at h ⊢
  have hnear : nearest (x / ulp x) ≤ n := nearest_le ((div_le_iff₀ (ulp_pos x)).mpr h)
  exact mul_le_mul_of_nonneg_right (by exact_mod_cast hnear) (ulp_pos x).le

theorem zpow_le_round53 {x : ℚ} {k : ℤ} (hk : -1022 ≤ k) (h : (2 : ℚ) ^ k ≤ x) :
    (2 : ℚ) ^ k ≤ round53 x := by
  have hx : 0 < x := lt_of_lt_of_le (zpow_pos (by norm_num) _) h
  have hlog : k ≤ Int.log 2 |x| := by
    rw [abs_of_pos hx, ← Int.zpow_le_iff_le_log (by norm_num) hx]
    exact_mod_cast h
  have hself : (2 : ℚ) ^ Int.log 2 |x| ≤ x := by
    rw [abs_of_pos hx]
    exact_mod_cast Int.zpow_log_le_self (R := ℚ) (by norm_num : 1 < 2) hx
  have hexp : exponent x = Int.log 2 |x| := max_eq_left (by omega)
  obtain ⟨n, hn⟩ := exists_int_zpow (a := 52) (by norm_num)
  have hpow : (2 : ℚ) ^ Int.log 2 |x| = n * ulp x := by
    rw [ulp, hexp, ← hn, zpow_two_split _ (Int.log 2 |x| - 52)]
    congr 2
    omega
  have hnear : n ≤ nearest (x / ulp x) :=
    le_nearest ((le_div_iff₀ (ulp_pos x)).mpr (hpow ▸ hself))
  calc (2 : ℚ) ^ k ≤ 2 ^ Int.log 2 |x| := zpow_le_zpow_right₀ (by norm_num) hlog
    _ = n * ulp x := hpow
    _ ≤ round53 x := mul_le_mul_of_nonneg_right (by exact_mod_cast hnear) (ulp_pos x).le

theorem round53_zpow {k : ℤ} (hk : -1022 ≤ k) : round53 (2 ^ k) = 2 ^ k := by
  have hpos : (0 : ℚ) < 2 ^ k := zpow_pos (by norm_num) _
  have hexp : exponent (2 ^ k : ℚ) ≤ k := by
    refine max_le ?_ hk
    have hself := Int.zpow_log_le_self (R := ℚ) (by norm_num : 1 < 2) hpos
    rw [abs_of_pos hpos]
    exact (zpow_le_zpow_iff_right₀ (by norm_num : (1 : ℚ) < 2)).mp (by exact_mod_cast hself)
  exact le_antisymm (round53_le_zpow hexp le_rfl) (zpow_le_round53 hk le_rfl)

@[simp] theorem round53_zero : round53 0 = 0 := by
  have h : nearest 0 = 0 := le_antisymm (nearest_le (by norm_num)) (le_nearest (by norm_num))
  rw [round53, zero_div, h, Int.cast_zero, zero_mul]

theorem log_eq {x : ℚ} (hx : 0 < x) {k : ℤ} (hle : (2 : ℚ) ^ k ≤ x) (hlt : x < 2 ^ (k + 1)) :
    Int.log 2 x = k := by
  have h1 : k ≤ Int.log 2 x := by
    rw [← Int.zpow_le_iff_le_log (by norm_num) hx]
    exact_mod_cast hle
  have h2 : Int.log 2 x < k + 1 := by
    rw [← Int.lt_zpow_iff_log_lt (by norm_num) hx]
    exact_mod_cast hlt
  omega

theorem zpow_eq_mul_ulp {x : ℚ} {k : ℤ} (hk : -1021 ≤ k) (hle : (2 : ℚ) ^ (k - 1) ≤ x)
    (hlt : x < 2 ^ k) : (2 : ℚ) ^ k = (2 ^ 53 : ℤ) * ulp x ∧ (2 : ℚ) ^ (k - 54) = 1 / 2 * ulp x := by
  have hx : 0 < x := lt_of_lt_of_le (zpow_pos (by norm_num) _) hle
  have hulp : ulp x = 2 ^ (k - 53) := by
    rw [ulp, exponent, abs_of_pos hx, log_eq hx hle (by rwa [sub_add_cancel]),
      max_eq_left (by omega)]
    congr 1
    omega
  constructor
  · rw [hulp, zpow_two_split k (k - 53), sub_sub_cancel]
    norm_num
  · rw [hulp, zpow_two_split (k - 53) (k - 54), show k - 53 - (k - 54) = 1 by omega, zpow_one]
    linarith

theorem round53_le_half {x : ℚ} (hx : 0 < x) {k : ℤ} (hk : -1021 ≤ k) (h : x < 2 ^ (k - 1)) :
    round53 x ≤ 2 ^ (k - 1) := by
  have hlog : Int.log 2 |x| < k - 1 := by
    rw [abs_of_pos hx, ← Int.lt_zpow_iff_log_lt (by norm_num) hx]
    exact_mod_cast h
  exact round53_le_zpow (max_le hlog.le (by omega)) h.le

/-- **A number is rounded up to a power of two** from half a unit of the last place below it on. -/
theorem round53_lt_zpow_iff {x : ℚ} (hx : 0 ≤ x) {k : ℤ} (hk : -1021 ≤ k) :
    round53 x < 2 ^ k ↔ x < 2 ^ k - 2 ^ (k - 54) := by
  have hhalf : (2 : ℚ) ^ k = 2 * 2 ^ (k - 1) := by
    rw [zpow_two_split k (k - 1), sub_sub_cancel, zpow_one]
  have hsmall : (2 : ℚ) ^ (k - 54) ≤ 2 ^ (k - 1) := zpow_le_zpow_right₀ (by norm_num) (by omega)
  have hpos : (0 : ℚ) < 2 ^ (k - 54) := zpow_pos (by norm_num) _
  rcases hx.eq_or_lt with rfl | hx
  · rw [round53_zero]
    constructor
    · intro _
      linarith
    · intro _
      linarith
  rcases lt_or_ge x (2 ^ (k - 1)) with hlow | hmid
  · -- below half the power nothing is rounded that far
    have hround := round53_le_half hx hk hlow
    constructor
    · intro _
      linarith
    · intro _
      linarith
  rcases lt_or_ge x (2 ^ k) with hlt | hge
  · obtain ⟨hpow, hlast⟩ := zpow_eq_mul_ulp hk hmid hlt
    have hu := ulp_pos x
    have heven : ((2 : ℤ) ^ 53) % 2 = 0 := by norm_num
    have hnear := nearest_lt_iff (x := x / ulp x) heven
    rw [div_lt_iff₀ hu, sub_mul, ← hpow, ← hlast] at hnear
    rw [← hnear, round53, hpow, mul_lt_mul_iff_left₀ hu, Int.cast_lt]
  · have hround := zpow_le_round53 (by omega) hge
    constructor
    · intro h
      linarith
    · intro h
      linarith

/-- What is rounded below a power of two is so far below it that it would not be rounded up. -/
theorem round53_lt_of_lt {x : ℚ} (hx : 0 ≤ x) {k : ℤ} (hk : -1021 ≤ k) (h : round53 x < 2 ^ k) :
    round53 x < 2 ^ k - 2 ^ (k - 54) := by
  have hhalf : (2 : ℚ) ^ k = 2 * 2 ^ (k - 1) := by
    rw [zpow_two_split k (k - 1), sub_sub_cancel, zpow_one]
  have hsmall : (2 : ℚ) ^ (k - 54) < 2 ^ (k - 1) := zpow_lt_zpow_right₀ (by norm_num) (by omega)
  rcases hx.eq_or_lt with rfl | hx
  · rw [round53_zero]
    linarith [zpow_pos (show (0 : ℚ) < 2 by norm_num) (k - 1)]
  rcases lt_or_ge x (2 ^ (k - 1)) with hlow | hmid
  · have hround := round53_le_half hx hk hlow
    linarith
  · have hlt : x < 2 ^ k := by
      by_contra hge
      exact absurd h (not_lt.mpr (zpow_le_round53 (by omega) (not_lt.mp hge)))
    obtain ⟨hpow, hlast⟩ := zpow_eq_mul_ulp hk hmid hlt
    have hu := ulp_pos x
    rw [hpow, round53, mul_lt_mul_iff_left₀ hu, Int.cast_lt] at h
    have hnear : (nearest (x / ulp x) : ℚ) ≤ (2 ^ 53 : ℤ) - 1 := by
      exact_mod_cast (by omega : nearest (x / ulp x) ≤ 2 ^ 53 - 1)
    have hmul := mul_le_mul_of_nonneg_right hnear hu.le
    rw [sub_mul, ← hpow, one_mul] at hmul
    rw [hlast, round53]
    linarith

end Optics.Lib.Binary64
