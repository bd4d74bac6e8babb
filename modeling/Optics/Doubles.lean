import Optics.LensSlots
import Optics.Lib.Binary64

/-! # Arithmetic of doubles

What the library computes with doubles. Comparisons are exact; an arithmetic operation rounds, and a
conversion to an integer is defined in the range of the integer only. Rounding and conversions come
from the processor and are parameters (`Fpu`), and so does a remainder by zero. The sign of a zero is
not kept. -/

namespace Optics.Doubles

open Optics.Base Optics.LensSlots

/-- What the processor makes of the exact result of an operation, of a conversion, and of a word that
is divided by zero for the remainder. -/
structure Fpu where
  round : ℚ → Double
  toInt : Double → Outcome ℤ
  toUInt64 : Double → Outcome UInt64
  remZero : UInt64 → Outcome UInt64

/-! ### Comparisons -/

/-- `lhs < rhs`. -/
def less : Double → Double → Bool
  | .fin p, .fin q => p < q
  | .negInf, .fin _ => true
  | .negInf, .posInf => true
  | .fin _, .posInf => true
  | _, _ => false

/-- `lhs == rhs`: not a number is not equal to itself. -/
def same : Double → Double → Bool
  | .fin p, .fin q => p = q
  | .negInf, .negInf => true
  | .posInf, .posInf => true
  | _, _ => false

/-! ### Operations -/

def neg : Double → Double
  | .nan => .nan
  | .negInf => .posInf
  | .fin q => .fin (-q)
  | .posInf => .negInf

/-- The infinity with the sign of a number, and `0 * ∞` for zero. -/
def infinity (q : ℚ) : Double := if q = 0 then .nan else if q < 0 then .negInf else .posInf

namespace Fpu
variable (fpu : Fpu)

/-- `lhs + rhs`. -/
def add : Double → Double → Double
  | .fin p, .fin q => fpu.round (p + q)
  | .nan, _ => .nan
  | _, .nan => .nan
  | .posInf, .negInf => .nan
  | .negInf, .posInf => .nan
  | .posInf, _ => .posInf
  | .negInf, _ => .negInf
  | .fin _, rhs => rhs

/-- `lhs - rhs`. -/
def sub (lhs rhs : Double) : Double := fpu.add lhs (neg rhs)

/-- `lhs * rhs`. -/
def mul : Double → Double → Double
  | .fin p, .fin q => fpu.round (p * q)
  | .nan, _ => .nan
  | _, .nan => .nan
  | .fin p, .posInf => infinity p
  | .posInf, .fin q => infinity q
  | .fin p, .negInf => infinity (-p)
  | .negInf, .fin q => infinity (-q)
  | .posInf, .posInf => .posInf
  | .negInf, .negInf => .posInf
  | .posInf, .negInf => .negInf
  | .negInf, .posInf => .negInf

/-- `lhs / rhs` of finite numbers; a divisor that is zero is a positive one. -/
def div : Double → Double → Double
  | .fin p, .fin q => if q = 0 then infinity p else fpu.round (p / q)
  | _, _ => .nan

/-- `lhs % rhs` of words. -/
def rem (lhs rhs : UInt64) : Outcome UInt64 :=
  if rhs = 0 then fpu.remZero lhs else .ok (lhs % rhs)

end Fpu

/-! ### Conversions -/

/-- The integer towards zero. -/
def trunc (q : ℚ) : ℤ := if q < 0 then ⌈q⌉ else ⌊q⌋

/-- A conversion to an integer between two bounds. -/
def toRange (lo hi : ℤ) : Double → Outcome ℤ
  | .fin q => if lo ≤ trunc q ∧ trunc q ≤ hi then .ok (trunc q) else .error .undefined
  | _ => .error .undefined

/-- `(int) d`. -/
def intOf : Double → Outcome ℤ := toRange (-2 ^ 31) (2 ^ 31 - 1)

/-- `(uint64_t) d`. -/
def uint64Of (d : Double) : Outcome UInt64 := do
  let n ← toRange 0 (2 ^ 64 - 1) d
  .ok (.ofNat n.toNat)

/-- `(double) n` of a signed number. -/
def doubleOfInt64 (n : UInt64) : ℚ :=
  if n.toNat < 2 ^ 63 then doubleOf n else -doubleOf (0 - n)

/-- Operations without rounding, conversions as the language has them. -/
def rational : Fpu := ⟨.fin, intOf, uint64Of, fun _ => .error .undefined⟩

/-- The arithmetic of binary64: the nearest double, or an infinity beyond the largest one. -/
def binary64 : Fpu where
  round q := if |Lib.Binary64.round53 q| < 2 ^ 1024 then .fin (Lib.Binary64.round53 q) else infinity q
  toInt := intOf
  toUInt64 := uint64Of
  remZero _ := .error .undefined

end Optics.Doubles
