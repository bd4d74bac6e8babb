import Mathlib.Data.Nat.Digits.Lemmas
import Mathlib.Tactic.IntervalCases
import Mathlib.Tactic.SplitIfs
import Mathlib.Tactic.Use

/-! # Decimal numerals

The numeral of a natural number as a list of bytes, and back. A numeral consists of digits, begins
with a zero only if it is that of zero (`decimal_head`), and its value is the number
(`valueOf_decimal`). -/

namespace Optics.Lib.Decimals

/-- The byte of a digit. -/
def digitByte (d : ℕ) : UInt8 := .ofNat (48 + d)

/-- `'0'` to `'9'`. -/
def isDigit (c : UInt8) : Bool := 48 ≤ c && c ≤ 57

def digitOf (c : UInt8) : ℕ := c.toNat - 48

/-- The numeral of a number. -/
def decimal (n : ℕ) : List UInt8 :=
  if n = 0 then [48] else (Nat.digits 10 n).reverse.map digitByte

/-- The number that some digits stand for. -/
def valueOf (l : List UInt8) : ℕ := l.foldl (fun n c => 10 * n + digitOf c) 0

theorem digitOf_digitByte {d : ℕ} (h : d < 10) : digitOf (digitByte d) = d := by
  interval_cases d <;> rfl

theorem isDigit_digitByte {d : ℕ} (h : d < 10) : isDigit (digitByte d) = true := by
  interval_cases d <;> rfl

theorem digitByte_eq_zero {d : ℕ} (h : d < 10) : digitByte d = 48 ↔ d = 0 := by
  interval_cases d <;> decide

theorem valueOf_append_singleton (l : List UInt8) (c : UInt8) :
    valueOf (l ++ [c]) = 10 * valueOf l + digitOf c := by
  unfold valueOf
  rw [List.foldl_append]
  rfl

theorem valueOf_reverse : ∀ {l : List ℕ}, (∀ d ∈ l, d < 10) →
    valueOf (l.reverse.map digitByte) = Nat.ofDigits 10 l
  | [], _ => rfl
  | d :: l, h => by
    rw [List.reverse_cons, List.map_append, List.map_singleton, valueOf_append_singleton,
      digitOf_digitByte (h d List.mem_cons_self), Nat.ofDigits_cons,
      valueOf_reverse fun x hx => h x (List.mem_cons_of_mem _ hx), add_comm]

/-- **A numeral** stands for its number. -/
theorem valueOf_decimal (n : ℕ) : valueOf (decimal n) = n := by
  unfold decimal
  split_ifs with h0
  · rw [h0]
    rfl
  · rw [valueOf_reverse fun d hd => Nat.digits_lt_base (by decide) hd, Nat.ofDigits_digits]

theorem decimal_inj {n m : ℕ} (h : decimal n = decimal m) : n = m := by
  rw [← valueOf_decimal n, h, valueOf_decimal]

theorem decimal_digits {n : ℕ} {c : UInt8} (hc : c ∈ decimal n) : isDigit c = true := by
  unfold decimal at hc
  split_ifs at hc
  · rw [List.mem_singleton.mp hc]
    rfl
  · obtain ⟨d, hd, rfl⟩ := List.mem_map.mp hc
    exact isDigit_digitByte (Nat.digits_lt_base (by decide) (List.mem_reverse.mp hd))

theorem decimal_ne_nil (n : ℕ) : decimal n ≠ [] := by
  unfold decimal
  split_ifs with h0
  · exact List.cons_ne_nil _ _
  · simpa [Nat.digits_ne_nil_iff_ne_zero] using h0

/-- A numeral begins with a zero only if there is nothing else. -/
theorem decimal_head {n : ℕ} {l : List UInt8} (h : decimal n = 48 :: l) : n = 0 := by
  unfold decimal at h
  split_ifs at h with h0
  · exact h0
  · have hne : Nat.digits 10 n ≠ [] := Nat.digits_ne_nil_iff_ne_zero.mpr h0
    have hlast : (Nat.digits 10 n).getLast hne ≠ 0 := Nat.getLast_digit_ne_zero 10 h0
    have hrev : (Nat.digits 10 n).reverse = (Nat.digits 10 n).getLast hne ::
        (Nat.digits 10 n).dropLast.reverse := by
      conv_lhs => rw [← List.dropLast_append_getLast hne]
      rw [List.reverse_append]
      rfl
    rw [hrev, List.map_cons] at h
    have hlt := Nat.digits_lt_base (show 1 < 10 by decide) (List.getLast_mem hne)
    exact absurd ((digitByte_eq_zero hlt).mp (List.cons.inj h).1) hlast

/-! ### Reading digits -/

/-- The digits in front of something else, and the rest. -/
def splitDigits (s : List UInt8) : List UInt8 × List UInt8 :=
  (s.takeWhile isDigit, s.dropWhile isDigit)

theorem splitDigits_append {ds : List UInt8} (hds : ∀ c ∈ ds, isDigit c = true)
    {rest : List UInt8} (hrest : ∀ c ∈ rest.head?, isDigit c = false) :
    splitDigits (ds ++ rest) = (ds, rest) := by
  unfold splitDigits
  rw [List.takeWhile_append_of_pos hds, List.dropWhile_append_of_pos hds]
  cases rest with
  | nil => simp
  | cons c rest => simp [hrest c rfl]

end Optics.Lib.Decimals
