import Optics.LensQuantile
import Mathlib.Tactic.Positivity

/-! # The probabilities of a quantile

`lens_quantile_update` draws with the target of the lens, and `lens_quantile_read` with the difference
of two counts over their sum, with the target, or with 1 less the target. `rng_gen_prob` multiplies
its argument with `2^64` and converts the product to a word: the argument should be a number from 0 to
1 for which that is defined (`Meaningful`), which leaves out the number 1.

* `meaningful_fin_iff`: which numbers are meaningful;
* `meaningful_round_iff`: a rounded result is so unless it is rounded up to 1;
* `meaningful_div_iff`: the first draw of a read is so iff the two counts are `Apart`. -/

namespace Optics.QuantileDraws

open Optics.Base Optics.LensSlots Optics.Doubles Optics.Utils.Random Optics.LensQuantile
open Optics.Lib.Binary64

/-! ### Meaningful arguments -/

/-- A number from 0 to 1 whose product with `rng_max()` converts to a word. -/
def Meaningful (p : Double) : Prop :=
  ∃ r, p = .fin r ∧ 0 ≤ r ∧ r ≤ 1 ∧
    ∃ n, binary64.toUInt64 (binary64.mul p (.fin (doubleOf rngMax))) = .ok n

theorem doubleOf_rngMax : doubleOf rngMax = 2 ^ 64 := by
  have h : doubleOf rngMax = ((18446744073709551616 : ℕ) : ℚ) := rfl
  rw [h]
  norm_num

theorem uint64Of_fin_iff {q : ℚ} (hq : 0 ≤ q) : (∃ n, uint64Of (.fin q) = .ok n) ↔ q < 2 ^ 64 := by
  have htrunc : trunc q = ⌊q⌋ := if_neg (not_lt.mpr hq)
  have hfloor : 0 ≤ ⌊q⌋ := Int.floor_nonneg.mpr hq
  have hlt : ⌊q⌋ < 2 ^ 64 ↔ q < 2 ^ 64 := by
    rw [Int.floor_lt]
    norm_num
  rw [← hlt]
  unfold uint64Of toRange
  dsimp only
  rw [htrunc]
  constructor
  · rintro ⟨n, hn⟩
    by_contra hge
    rw [if_neg (by omega)] at hn
    cases hn
  · intro h
    rw [if_pos (by omega)]
    exact ⟨_, rfl⟩

theorem uint64Of_infinity (q : ℚ) : uint64Of (infinity q) = .error .undefined := by
  unfold infinity
  split_ifs
  · rfl
  · rfl
  · rfl

/-- A number is rounded up to 1, or to `2^64`, from the middle of the last place below it on. -/
theorem round53_lt_one_iff {x : ℚ} (hx : 0 ≤ x) : round53 x < 1 ↔ x < 1 - 1 / 2 ^ 54 := by
  have h := round53_lt_zpow_iff hx (k := 0) (by norm_num)
  norm_num at h ⊢
  exact h

theorem round53_lt_word_iff {x : ℚ} (hx : 0 ≤ x) : round53 x < 2 ^ 64 ↔ x < 2 ^ 64 - 2 ^ 10 := by
  have h := round53_lt_zpow_iff hx (k := 64) (by norm_num)
  norm_num at h ⊢
  exact h

theorem binary64_round {x : ℚ} (h : |round53 x| < 2 ^ 1024) : binary64.round x = .fin (round53 x) :=
  if_pos h

theorem binary64_round_of_lt {x : ℚ} (hx : 0 ≤ x) {k : ℕ} (hk : k ≤ 1024) (h : round53 x < 2 ^ k) :
    binary64.round x = .fin (round53 x) := by
  refine binary64_round ?_
  rw [abs_of_nonneg (round53_nonneg hx)]
  exact lt_of_lt_of_le h (pow_le_pow_right₀ (by norm_num) hk)

/-- **The meaningful numbers.** -/
theorem meaningful_fin_iff {r : ℚ} : Meaningful (.fin r) ↔ 0 ≤ r ∧ r < 1 - 1 / 2 ^ 54 := by
  have hmul : binary64.mul (.fin r) (.fin (doubleOf rngMax)) = binary64.round (r * 2 ^ 64) := by
    rw [doubleOf_rngMax]
    rfl
  have hscale : r * 2 ^ 64 < 2 ^ 64 - 2 ^ 10 ↔ r < 1 - 1 / 2 ^ 54 := by
    constructor
    · intro h
      linarith
    · intro h
      linarith
  unfold Meaningful
  rw [hmul]
  constructor
  · rintro ⟨r', hr', hr0, -, n, hn⟩
    cases hr'
    have hx : 0 ≤ r * 2 ^ 64 := by positivity
    refine ⟨hr0, hscale.mp ((round53_lt_word_iff hx).mp ?_)⟩
    by_cases hfin : |round53 (r * 2 ^ 64)| < 2 ^ 1024
    · rw [binary64_round hfin] at hn
      exact (uint64Of_fin_iff (round53_nonneg hx)).mp ⟨n, hn⟩
    · have hinf : binary64.round (r * 2 ^ 64) = infinity (r * 2 ^ 64) := if_neg hfin
      rw [hinf] at hn
      cases (uint64Of_infinity _).symm.trans hn
  · rintro ⟨hr0, hlt⟩
    have hx : 0 ≤ r * 2 ^ 64 := by positivity
    have hround := (round53_lt_word_iff hx).mpr (hscale.mpr hlt)
    refine ⟨r, rfl, hr0, by linarith, ?_⟩
    rw [binary64_round_of_lt hx (by norm_num) hround]
    exact (uint64Of_fin_iff (round53_nonneg hx)).mpr hround

theorem not_meaningful_infinity (q : ℚ) : ¬ Meaningful (infinity q) := by
  rintro ⟨r, hr, -⟩
  unfold infinity at hr
  split_ifs at hr

/-- **A rounded result** is meaningful unless it is rounded up to 1. -/
theorem meaningful_round_iff {x : ℚ} (hx : 0 ≤ x) :
    Meaningful (binary64.round x) ↔ x < 1 - 1 / 2 ^ 54 := by
  rw [← round53_lt_one_iff hx]
  constructor
  · intro h
    by_cases hfin : |round53 x| < 2 ^ 1024
    · rw [binary64_round hfin, meaningful_fin_iff] at h
      linarith [h.2, show (0 : ℚ) < 1 / 2 ^ 54 by positivity]
    · have hinf : binary64.round x = infinity x := if_neg hfin
      rw [hinf] at h
      exact absurd h (not_meaningful_infinity x)
  · intro h
    have hgap := round53_lt_of_lt hx (k := 0) (by norm_num) (by rwa [zpow_zero])
    rw [binary64_round_of_lt hx (Nat.zero_le 1024) (by rwa [pow_zero]), meaningful_fin_iff]
    refine ⟨round53_nonneg hx, ?_⟩
    norm_num at hgap ⊢
    exact hgap

theorem not_meaningful_div_zero (d : ℚ) : ¬ Meaningful (binary64.div (.fin d) (.fin 0)) := by
  have hdiv : binary64.div (.fin d) (.fin 0) = infinity d := by
    unfold Fpu.div
    exact if_pos rfl
  rw [hdiv]
  exact not_meaningful_infinity d

theorem rngGenProb_returns {p : Double} (h : Meaningful p) (x : UInt64) :
    ∃ r, rngGenProb binary64 x p = .ok r := by
  obtain ⟨r, -, -, -, n, hn⟩ := h
  unfold rngGenProb
  dsimp only
  rw [hn]
  exact ⟨_, rfl⟩

/-- The generator answers meaningful arguments. -/
def Answers {σ : Type} (rng : Rng σ) : Prop := ∀ s p, Meaningful p → ∃ r, rng.genProb s p = .ok r

theorem answers_xorshift : Answers (xorshift binary64) := fun x _ h => rngGenProb_returns h x

theorem Answers.traced {σ : Type} {rng : Rng σ} (h : Answers rng) : Answers rng.traced :=
  fun s p hp => by
    obtain ⟨r, hr⟩ := h s.1 p hp
    exact ⟨_, traced_genProb hr s.2⟩

/-- **A quotient** is meaningful iff it is not rounded up to 1. -/
theorem meaningful_quotient_iff {a b : ℚ} (ha : 0 ≤ a) (hb : 0 ≤ b) :
    Meaningful (binary64.div (.fin a) (.fin b)) ↔ a < b - b / 2 ^ 54 := by
  rcases hb.eq_or_lt with rfl | hpos
  · refine ⟨fun h => absurd h (not_meaningful_div_zero _), fun h => ?_⟩
    rw [zero_div, sub_zero] at h
    exact absurd h (not_lt.mpr ha)
  · have hdiv : binary64.div (.fin a) (.fin b) = binary64.round (a / b) := if_neg hpos.ne'
    rw [hdiv, meaningful_round_iff (div_nonneg ha hpos.le), div_lt_iff₀ hpos, sub_mul, one_mul,
      one_div_mul_eq_div]

/-! ### The arguments of a read -/

theorem doubleOf_nonneg (n : UInt64) : 0 ≤ doubleOf n := by
  unfold doubleOf
  dsimp only
  split_ifs
  · positivity
  · positivity
  · positivity

/-- The difference of two counts. -/
def countDelta (count sampleCount : UInt64) : UInt64 :=
  if sampleCount < count then count - sampleCount else sampleCount - count

/-- The difference of the counts is so far below their sum that the quotient is not rounded up
to 1. -/
def Apart (count sampleCount : UInt64) : Prop :=
  doubleOf (countDelta count sampleCount) <
    doubleOf (count + sampleCount) - doubleOf (count + sampleCount) / 2 ^ 54

/-- **The first draw of a read** is meaningful iff the counts are apart. -/
theorem meaningful_div_iff (count sampleCount : UInt64) :
    Meaningful (binary64.div (.fin (doubleOf (countDelta count sampleCount)))
      (.fin (doubleOf (count + sampleCount)))) ↔ Apart count sampleCount :=
  meaningful_quotient_iff (doubleOf_nonneg _) (doubleOf_nonneg _)

theorem countDelta_toNat (count sampleCount : UInt64) : (countDelta count sampleCount).toNat =
    max count.toNat sampleCount.toNat - min count.toNat sampleCount.toNat := by
  unfold countDelta
  split_ifs with hlt
  · rw [UInt64.lt_iff_toNat_lt] at hlt
    rw [UInt64.toNat_sub_of_le _ _ (UInt64.le_iff_toNat_le.mpr hlt.le)]
    omega
  · rw [UInt64.lt_iff_toNat_lt] at hlt
    rw [UInt64.toNat_sub_of_le _ _ (UInt64.le_iff_toNat_le.mpr (by omega))]
    omega

theorem apart_iff_of_small {count sampleCount : UInt64}
    (h : count.toNat + sampleCount.toNat < 2 ^ 53) :
    Apart count sampleCount ↔ count ≠ 0 ∧ sampleCount ≠ 0 := by
  have hsum : (count + sampleCount).toNat = count.toNat + sampleCount.toNat := by
    rw [UInt64.toNat_add, Nat.mod_eq_of_lt (by omega)]
  have hne (n : UInt64) : n ≠ 0 ↔ 0 < n.toNat := by
    rw [Ne, ← UInt64.toNat_inj, UInt64.toNat_zero]
    omega
  have hdelta := countDelta_toNat count sampleCount
  rw [Apart, doubleOf_of_lt (by omega), doubleOf_of_lt (by omega), hdelta, hsum, hne, hne]
  obtain ⟨lo, hlo⟩ : ∃ lo, lo = min count.toNat sampleCount.toNat := ⟨_, rfl⟩
  obtain ⟨sum, hsum'⟩ : ∃ sum, sum = count.toNat + sampleCount.toNat := ⟨_, rfl⟩
  have hcast : ((max count.toNat sampleCount.toNat - min count.toNat sampleCount.toNat : ℕ) : ℚ) =
      sum - 2 * lo := by
    have hnat : max count.toNat sampleCount.toNat - min count.toNat sampleCount.toNat + 2 * lo =
        sum := by omega
    rw [← hnat]
    push_cast
    ring
  have hbound : (sum : ℚ) < 2 ^ 53 := by exact_mod_cast (by omega : sum < 2 ^ 53)
  have hnonneg : (0 : ℚ) ≤ sum := Nat.cast_nonneg _
  rw [hcast, ← hsum']
  constructor
  · intro hlt
    by_contra hzero
    have hlo0 : lo = 0 := by omega
    rw [hlo0, Nat.cast_zero] at hlt
    linarith [div_nonneg hnonneg (show (0 : ℚ) ≤ 2 ^ 54 by positivity)]
  · rintro ⟨h1, h2⟩
    have hone : (1 : ℚ) ≤ lo := by exact_mod_cast (by omega : 1 ≤ lo)
    have hsmall : (sum : ℚ) / 2 ^ 54 < 1 := by
      rw [div_lt_one (by positivity)]
      linarith
    linarith

/-! ### The rate of a mix -/

/-- The double of a number differs from it by an eighth at most. -/
theorem doubleOf_bounds (n : UInt64) :
    7 * (n.toNat : ℚ) ≤ 8 * doubleOf n ∧ 8 * doubleOf n ≤ 9 * n.toNat := by
  obtain ⟨k, hk⟩ : ∃ k, k = Nat.log2 n.toNat - 52 := ⟨_, rfl⟩
  unfold doubleOf
  dsimp only
  rw [← hk]
  split_ifs with h0 hup
  · constructor
    · linarith [Nat.cast_nonneg (α := ℚ) n.toNat]
    · linarith [Nat.cast_nonneg (α := ℚ) n.toNat]
  all_goals
    have hne : n.toNat ≠ 0 := fun hz => by
      rw [hz] at hk
      exact h0 hk
    have hpow : 2 ^ k * 8 ≤ n.toNat := by
      have hlog : 2 ^ Nat.log2 n.toNat ≤ n.toNat := Nat.log2_self_le hne
      have hexp : 2 ^ (k + 3) ≤ 2 ^ Nat.log2 n.toNat :=
        Nat.pow_le_pow_right (by decide) (by omega)
      rw [Nat.pow_succ, Nat.pow_succ, Nat.pow_succ] at hexp
      omega
    have hdiv := Nat.div_add_mod n.toNat (2 ^ k)
    have hmod := Nat.mod_lt n.toNat (Nat.two_pow_pos k)
    rw [Nat.mul_comm] at hdiv
    rw [Nat.shiftRight_eq_div_pow]
    norm_cast
  · have hnext := Nat.add_one_mul (n.toNat / 2 ^ k) (2 ^ k)
    omega
  · omega

/-- **The rate of a mix** of two reservoirs is meaningful. -/
theorem meaningful_rate {m n : UInt64} (hpos : 0 < m.toNat) (hle : m.toNat ≤ n.toNat)
    (hsum : m.toNat + n.toNat < 2 ^ 64) :
    Meaningful (binary64.div (.fin (doubleOf m)) (.fin (doubleOf (m + n)))) := by
  rw [meaningful_quotient_iff (doubleOf_nonneg _) (doubleOf_nonneg _)]
  have hm := (doubleOf_bounds m).2
  have htotal := (doubleOf_bounds (m + n)).1
  have hadd : (m + n).toNat = m.toNat + n.toNat := by
    rw [UInt64.toNat_add]
    exact Nat.mod_eq_of_lt hsum
  have htwice : 2 * (m.toNat : ℚ) ≤ (m + n).toNat := by
    rw [hadd]
    exact_mod_cast (by omega : 2 * m.toNat ≤ m.toNat + n.toNat)
  have hm0 : (0 : ℚ) < m.toNat := Nat.cast_pos.mpr hpos
  have hsmall : doubleOf (m + n) / 2 ^ 54 ≤ doubleOf (m + n) / 8 :=
    div_le_div_of_nonneg_left (doubleOf_nonneg _) (by norm_num) (by norm_num)
  linarith

end Optics.QuantileDraws
