import Optics.Doubles
import Optics.Lib.JsonText
import Optics.Lib.Utf8
import Mathlib.Data.Int.Log
import Mathlib.Data.List.DropRight

/-! # Conversions of `printf`

What `%zu`, `%lu` and `%g` make of a number. A finite double is printed as a number of JSON; one that
is not finite is printed as a name. `%g` prints the sign bit of every double. A `Double` has none if it
is a zero or not a number, so that the sign bit is an argument of its own. -/

namespace Optics.Utils.Formats

open Optics.LensSlots Optics.Lib.Decimals Optics.Lib.JsonText Optics.Lib.Utf8

/-- `%zu`, `%lu` and `PRIu64`. -/
def formatU (n : UInt64) : List UInt8 := decimal n.toNat

/-- The sign bit of the double with these bits. -/
def signBit (bits : UInt64) : Bool := 2 ^ 63 ≤ bits.toNat

/-- `pun_itod`: the double with these bits, but for the sign of a zero and of what is not a number. -/
def punItod (bits : UInt64) : Double :=
  let neg : Bool := 2 ^ 63 ≤ bits.toNat
  let e : ℕ := bits.toNat / 2 ^ 52 % 2 ^ 11
  let m : ℕ := bits.toNat % 2 ^ 52
  let q : ℚ := if e = 0 then m / 2 ^ 1074 else (2 ^ 52 + m) * 2 ^ e / 2 ^ 1075
  if e = 2 ^ 11 - 1 then if m ≠ 0 then .nan else if neg then .negInf else .posInf
  else .fin (if neg then -q else q)

/-! ### `%g` -/

/-- The nearest integer, the even one of two. -/
def roundEven (q : ℚ) : ℤ :=
  let r := q - ⌊q⌋
  if r < 1 / 2 ∨ (r = 1 / 2 ∧ ⌊q⌋ % 2 = 0) then ⌊q⌋ else ⌊q⌋ + 1

/-- Six digits and the decimal exponent of the first of them, for a positive number. -/
def significant (q : ℚ) : ℕ × ℤ :=
  let x := Int.log 10 q
  let m := (roundEven (q * 10 ^ (5 - x))).toNat
  if m = 10 ^ 6 then (10 ^ 5, x + 1) else (m, x)

/-- The last `k` digits of a number. -/
def lastDigits (m k : ℕ) : List UInt8 :=
  (List.range k).map fun i => digitByte (m / 10 ^ (k - 1 - i) % 10)

/-- The digits behind a point, without zeros at the end. -/
def stripZeros (ds : List UInt8) : List UInt8 := ds.rdropWhile fun c => c = 48

/-- At least two digits. -/
def exponent (n : ℕ) : List UInt8 := if n < 10 then [48, digitByte n] else decimal n

/-- `%g` of a finite number, with the sign bit for a zero. -/
def numeralG (sign : Bool) (q : ℚ) : Numeral :=
  if q = 0 then ⟨sign, 0, [], none⟩
  else
    let (m, x) := significant |q|
    let neg : Bool := q < 0
    if x < -4 ∨ 6 ≤ x then
      ⟨neg, m / 10 ^ 5, stripZeros (lastDigits m 5), some (x < 0, exponent x.natAbs)⟩
    else if 0 ≤ x then
      ⟨neg, m / 10 ^ (5 - x.toNat), stripZeros (lastDigits m (5 - x.toNat)), none⟩
    else ⟨neg, 0, stripZeros (lastDigits m (5 + x.natAbs)), none⟩

/-- `%g`, with the sign bit for a zero and for what is not a number. -/
def formatG (sign : Bool) : Double → List UInt8
  | .nan => if sign then [45, 110, 97, 110] else [110, 97, 110]
  | .negInf => [45, 105, 110, 102]
  | .fin q => (numeralG sign q).print
  | .posInf => [105, 110, 102]

/-- The bits of a negative zero. -/
example : formatG (signBit 0x8000000000000000) (.fin 0) = [45, 48] := rfl

/-! ### Digits -/

theorem lastDigits_digits {m k : ℕ} {c : UInt8} (hc : c ∈ lastDigits m k) : isDigit c = true := by
  obtain ⟨i, -, rfl⟩ := List.mem_map.mp hc
  exact isDigit_digitByte (Nat.mod_lt _ (by decide))

theorem stripZeros_digits {m k : ℕ} {c : UInt8} (hc : c ∈ stripZeros (lastDigits m k)) :
    isDigit c = true :=
  lastDigits_digits ((List.rdropWhile_prefix _ _).subset hc)

theorem exponent_digits (n : ℕ) : exponent n ≠ [] ∧ ∀ c ∈ exponent n, isDigit c = true := by
  unfold exponent
  split_ifs with h
  · refine ⟨List.cons_ne_nil _ _, fun c hc => ?_⟩
    rcases List.mem_cons.mp hc with rfl | hc
    · rfl
    · rw [List.mem_singleton.mp hc]
      exact isDigit_digitByte h
  · exact ⟨decimal_ne_nil n, fun c hc => decimal_digits hc⟩

/-- **A finite double** is printed as a number. -/
theorem numeralG_valid (sign : Bool) (q : ℚ) : (numeralG sign q).Valid := by
  unfold numeralG
  dsimp only
  split_ifs
  · exact ⟨fun c hc => absurd hc List.not_mem_nil, fun neg ds h => nomatch h⟩
  · refine ⟨fun c hc => stripZeros_digits hc, fun neg ds h => ?_⟩
    cases h
    exact exponent_digits _
  · exact ⟨fun c hc => stripZeros_digits hc, fun neg ds h => nomatch h⟩
  · exact ⟨fun c hc => stripZeros_digits hc, fun neg ds h => nomatch h⟩

/-! ### ASCII -/

theorem ascii_of_digits {s : List UInt8} (h : ∀ c ∈ s, isDigit c = true) : Ascii s := by
  intro c hc
  have hle := h c hc
  simp only [isDigit, Bool.and_eq_true, decide_eq_true_eq] at hle
  exact UInt8.lt_of_le_of_lt hle.2 (by decide)

theorem ascii_decimal (n : ℕ) : Ascii (decimal n) := ascii_of_digits fun _ hc => decimal_digits hc

theorem ascii_numeral {n : Numeral} (h : n.Valid) : Ascii n.print := by
  unfold Numeral.print Numeral.printFrac Numeral.printExp
  refine .append ?_ (.append (ascii_decimal _) (.append ?_ ?_))
  · split_ifs
    · exact .cons (by decide) fun c hc => absurd hc List.not_mem_nil
    · exact fun c hc => absurd hc List.not_mem_nil
  · split_ifs
    · exact fun c hc => absurd hc List.not_mem_nil
    · exact .cons (by decide) (ascii_of_digits h.frac)
  · rcases hexp : n.exp with _ | ⟨neg, ds⟩
    · exact fun c hc => absurd hc List.not_mem_nil
    · refine .cons (by decide) (.cons ?_ (ascii_of_digits (h.exp neg ds hexp).2))
      split_ifs <;> decide

end Optics.Utils.Formats
