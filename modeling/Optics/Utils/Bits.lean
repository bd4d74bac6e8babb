import Optics.Base
import Mathlib.Data.Nat.Bitwise
import Mathlib.Tactic.Ring
import Mathlib.Tactic.IntervalCases

/-! # Bit operations of `bits.h`

Only what the size classes of the allocator and the layout of a region use: `ctz`, `clz`,
`leading_bit`, `ceil_pow2`, `ceil_div` and `align`, on 64-bit words. -/

namespace Optics.Utils.Bits

open Optics.Base

/-- The number of trailing zero bits among the first `k`. -/
def trailing : ℕ → ℕ → ℕ
  | 0, _ => 0
  | k + 1, x => if x % 2 = 1 then 0 else 1 + trailing k (x / 2)

/-- Number of trailing zeroes. -/
def ctz (x : ℕ) : ℕ := if x = 0 then 64 else trailing 64 x

/-- Number of leading zeroes. -/
def clz (x : ℕ) : ℕ := if x = 0 then 64 else 63 - Nat.log2 x

/-- The word with only the highest set bit of `x`. -/
def leadingBit (x : ℕ) : ℕ := if x = 0 then 0 else x &&& (1 <<< (63 - clz x))

/-- The smallest power of two that is at least `x`. -/
def ceilPow2 (x : ℕ) : ℕ := if x > 1 then w64 (leadingBit (x - 1) <<< 1) else 1

def ceilDiv (n d : ℕ) : ℕ := if n = 0 then 0 else (n - 1) / d + 1

def align (n a : ℕ) : ℕ := ceilDiv n a * a

theorem leadingBit_eq {x k : ℕ} (hk : k < 64) (h1 : 2 ^ k ≤ x) (h2 : x < 2 ^ (k + 1)) :
    leadingBit x = 2 ^ k := by
  have hx : x ≠ 0 := by have := Nat.two_pow_pos k; omega
  have hlog : Nat.log2 x = k := by
    rw [Nat.log2_eq_iff hx]; exact ⟨h1, h2⟩
  have hbit : x.testBit k = true := by
    rw [Nat.testBit_eq_decide_div_mod_eq, decide_eq_true_eq]
    have h3 : x / 2 ^ k = 1 := by
      rw [Nat.div_eq_iff (Nat.two_pow_pos k)]
      rw [pow_succ] at h2
      omega
    rw [h3]
  rw [leadingBit, if_neg hx, clz, if_neg hx, hlog, show 63 - (63 - k) = k by omega,
    Nat.one_shiftLeft, Nat.and_two_pow, hbit]
  simp

/-- Numbers above a power of two are rounded to the next one. -/
theorem ceilPow2_eq {x k : ℕ} (hk : k < 63) (h1 : 2 ^ k < x) (h2 : x ≤ 2 ^ (k + 1)) :
    ceilPow2 x = 2 ^ (k + 1) := by
  have hp := Nat.two_pow_pos k
  have hlt : 2 ^ (k + 1) < 2 ^ 64 := Nat.pow_lt_pow_right (by decide) (by omega)
  rw [ceilPow2, if_pos (by omega), leadingBit_eq (k := k) (by omega) (by omega) (by omega),
    Nat.shiftLeft_eq, ← pow_succ, w64_eq hlt]

theorem ceilDiv_mul_ge (n : ℕ) {d : ℕ} (hd : 0 < d) : n ≤ ceilDiv n d * d := by
  unfold ceilDiv
  split_ifs with h
  · omega
  · have h1 := Nat.div_add_mod (n - 1) d
    have h2 := Nat.mod_lt (n - 1) hd
    rw [Nat.add_mul, Nat.mul_comm]
    omega

end Optics.Utils.Bits
