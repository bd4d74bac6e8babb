import Mathlib.Logic.Function.Iterate
import Mathlib.Tactic.Positivity
import Mathlib.Tactic.Ring

/-! # Xor-shift maps

A word combined by exclusive or with a shift of itself. Shifts are linear, so the map applied twice
is the map of twice the distance, and applied `2 ^ k` times the map of `2 ^ k` times the distance
(`Shift.iterate_xorShift`). A shift by the width or more leaves nothing: some iterate is the identity,
and the map is a bijection (`Shift.xorShift_bijective`).

* `Shift`: what a direction of shifting has to satisfy;
* `left`, `right`: the two directions. -/

namespace Optics.Lib.Xorshift

variable {w : ℕ}

/-- A direction in which words are shifted. -/
structure Shift (w : ℕ) where
  shift : ℕ → BitVec w → BitVec w
  shift_xor : ∀ s x y, shift s (x ^^^ y) = shift s x ^^^ shift s y
  shift_shift : ∀ s t x, shift t (shift s x) = shift (s + t) x
  shift_ge : ∀ s x, w ≤ s → shift s x = 0

/-- Towards the high bits. -/
def left : Shift w where
  shift s x := x <<< s
  shift_xor s x y := BitVec.shiftLeft_xor_distrib x y s
  shift_shift s t x := (BitVec.shiftLeft_add x s t).symm
  shift_ge _ _ hs := BitVec.shiftLeft_eq_zero hs

/-- Towards the low bits. -/
def right : Shift w where
  shift s x := x >>> s
  shift_xor s x y := BitVec.ushiftRight_xor_distrib x y s
  shift_shift s t x := (BitVec.shiftRight_add x s t).symm
  shift_ge _ _ hs := BitVec.ushiftRight_eq_zero hs

namespace Shift

variable (S : Shift w)

/-- A word combined with its shift. -/
def xorShift (s : ℕ) (x : BitVec w) : BitVec w := x ^^^ S.shift s x

/-- Twice the map of a distance is the map of twice the distance. -/
theorem xorShift_xorShift (s : ℕ) (x : BitVec w) :
    S.xorShift s (S.xorShift s x) = S.xorShift (s + s) x := by
  unfold xorShift
  rw [S.shift_xor, S.shift_shift, BitVec.xor_assoc, ← BitVec.xor_assoc (S.shift s x),
    BitVec.xor_self, BitVec.zero_xor]

theorem xorShift_ge {s : ℕ} (hs : w ≤ s) (x : BitVec w) : S.xorShift s x = x := by
  rw [xorShift, S.shift_ge s x hs]
  exact BitVec.xor_zero

theorem iterate_xorShift (s : ℕ) : ∀ (k : ℕ) (x : BitVec w),
    (S.xorShift s)^[2 ^ k] x = S.xorShift (s * 2 ^ k) x
  | 0, x => by rw [pow_zero, mul_one, Function.iterate_one]
  | k + 1, x => by
    have hdouble : s * 2 ^ (k + 1) = s * 2 ^ k + s * 2 ^ k := by ring
    rw [pow_succ, mul_two, Function.iterate_add_apply, iterate_xorShift s k, iterate_xorShift s k,
      xorShift_xorShift, ← hdouble, pow_succ, mul_two]

/-- **An xor-shift by a positive distance is a bijection.** -/
theorem xorShift_bijective {s : ℕ} (hs : 0 < s) : Function.Bijective (S.xorShift s) := by
  have hid : ∀ x, (S.xorShift s)^[2 ^ w] x = x := fun x => by
    have hge : w ≤ s * 2 ^ w := Nat.lt_two_pow_self.le.trans (Nat.le_mul_of_pos_left _ hs)
    rw [S.iterate_xorShift, S.xorShift_ge hge]
  obtain ⟨n, hn⟩ : ∃ n, 2 ^ w = n + 1 := Nat.exists_eq_succ_of_ne_zero (by positivity)
  rw [hn] at hid
  refine Function.bijective_iff_has_inverse.mpr ⟨(S.xorShift s)^[n], fun x => ?_, fun x => ?_⟩
  · exact (Function.iterate_succ_apply (S.xorShift s) n x).symm.trans (hid x)
  · exact (Function.iterate_succ_apply' (S.xorShift s) n x).symm.trans (hid x)

end Shift

end Optics.Lib.Xorshift
