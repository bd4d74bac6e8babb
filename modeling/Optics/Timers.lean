import Optics.Doubles
import Mathlib.Tactic.Ring

/-! # Timers

`optics_timer_elapsed` of `optics.h`: the nanoseconds from a first reading of the clock to a second
one, scaled. The readings of the clock are arguments.

* in the same second the count is the difference of the two nanosecond fields;
* across seconds the code adds `10^9 - t1.nsec + t0.nsec` where the difference of the fields
  belongs, so that the count is off by `10^9` less twice that difference (`elapsedNanos_spec`);
* `elapsed_iff`: the count is exact in the same second, and across seconds only where the two errors
  cancel. -/

namespace Optics.Timers

open Optics.Base Optics.LensSlots Optics.Doubles

/-- A reading of the clock: `struct timespec`. -/
structure Timespec where
  tvSec : ℤ
  tvNsec : ℤ
  sec_word : -2 ^ 63 ≤ tvSec ∧ tvSec < 2 ^ 63
  nsec_lt : 0 ≤ tvNsec ∧ tvNsec < 1000000000

/-- A difference of signed words: open when it does not fit. -/
def subInt64 (lhs rhs : ℤ) : Outcome ℤ :=
  if -2 ^ 63 ≤ lhs - rhs ∧ lhs - rhs < 2 ^ 63 then .ok (lhs - rhs) else .error .undefined

/-- `optics_timer_elapsed` in front of the scaling. -/
def elapsedNanos (t0 t1 : Timespec) : Outcome UInt64 := do
  let nanoSec : ℤ := 1 * 1000 * 1000 * 1000
  let secs := UInt64.ofInt (← subInt64 t1.tvSec t0.tvSec)
  let nanos ←
    if secs ≠ 0 then .ok ((.ofInt nanoSec - .ofInt t1.tvNsec) + .ofInt t0.tvNsec)
    else do
      let d ← subInt64 t1.tvNsec t0.tvNsec
      .ok (.ofInt d)
  .ok (secs * .ofInt nanoSec + nanos)

/-- `optics_timer_elapsed`. -/
def opticsTimerElapsed (fpu : Fpu) (t0 t1 : Timespec) (scale : Double) : Outcome Double := do
  let n ← elapsedNanos t0 t1
  .ok (fpu.mul (.fin (doubleOf n)) scale)

/-! ### What a timer is for -/

namespace Timespec

/-- The nanoseconds since the clock's zero. -/
def nanos (t : Timespec) : ℤ := t.tvSec * 1000000000 + t.tvNsec

/-- Readings in the order of their seconds, then of their nanoseconds. -/
instance le : LE Timespec :=
  ⟨fun t0 t1 => t0.tvSec < t1.tvSec ∨ t0.tvSec = t1.tvSec ∧ t0.tvNsec ≤ t1.tvNsec⟩

instance decidableLe : DecidableLE Timespec :=
  fun _ _ => inferInstanceAs (Decidable (_ ∨ _))

theorem le_iff_nanos {t0 t1 : Timespec} : t0 ≤ t1 ↔ t0.nanos ≤ t1.nanos := by
  have h0 := t0.nsec_lt
  have h1 := t1.nsec_lt
  change (_ < _ ∨ _ = _ ∧ _ ≤ _) ↔ _
  unfold nanos
  omega

end Timespec

/-- The count is the number of nanoseconds between the readings. -/
def Exact (t0 t1 : Timespec) : Prop :=
  ∃ n, elapsedNanos t0 t1 = .ok n ∧ (n.toNat : ℤ) = t1.nanos - t0.nanos

/-- Both readings in the same second, or their nanoseconds half a second apart and the count in a
word. -/
def Regular (t0 t1 : Timespec) : Prop :=
  t0.tvSec = t1.tvSec ∨ t1.tvNsec - t0.tvNsec = 500000000 ∧ t1.nanos - t0.nanos < 2 ^ 64

instance decidableRegular (t0 t1 : Timespec) : Decidable (Regular t0 t1) :=
  inferInstanceAs (Decidable (_ ∨ _))

/-! ### What the code counts -/

/-- What the code counts in place of the difference of the nanosecond fields. -/
def codeNanos (t0 t1 : Timespec) : ℤ :=
  if t0.tvSec = t1.tvSec then t1.tvNsec - t0.tvNsec else 1000000000 - t1.tvNsec + t0.tvNsec

theorem subInt64_eq {lhs rhs : ℤ} (h : -2 ^ 63 ≤ lhs - rhs ∧ lhs - rhs < 2 ^ 63) :
    subInt64 lhs rhs = .ok (lhs - rhs) := if_pos h

theorem toNat_ofInt (z : ℤ) : ((UInt64.ofInt z).toNat : ℤ) = z % 2 ^ 64 := by
  have h0 : 0 ≤ z % 2 ^ 64 := Int.emod_nonneg _ (by decide)
  have h1 : z % 2 ^ 64 < 2 ^ 64 := Int.emod_lt_of_pos _ (by decide)
  have h : (UInt64.ofInt z).toNat = (z % 2 ^ 64).toNat % 2 ^ 64 := rfl
  rw [h, Nat.mod_eq_of_lt (by omega)]
  exact Int.toNat_of_nonneg h0

theorem ofInt_eq_zero_iff {z : ℤ} (h0 : 0 ≤ z) (h1 : z < 2 ^ 64) : UInt64.ofInt z = 0 ↔ z = 0 := by
  rw [← UInt64.toNat_inj]
  have h := toNat_ofInt z
  rw [Int.emod_eq_of_lt h0 h1] at h
  simp only [UInt64.toNat_zero]
  omega

/-- **What the code counts**, where the seconds are less than `2^63` apart. -/
theorem elapsedNanos_spec {t0 t1 : Timespec} (h : t0 ≤ t1) (hs : t1.tvSec - t0.tvSec < 2 ^ 63) :
    elapsedNanos t0 t1 =
      .ok (.ofInt ((t1.tvSec - t0.tvSec) * 1000000000 + codeNanos t0 t1)) := by
  have h0 := t0.nsec_lt
  have h1 := t1.nsec_lt
  have hle : t0.tvSec ≤ t1.tvSec := h.elim (fun h => h.le) (fun h => h.1.le)
  have hz : UInt64.ofInt (t1.tvSec - t0.tvSec) = 0 ↔ t0.tvSec = t1.tvSec := by
    rw [ofInt_eq_zero_iff (by omega) (by omega)]
    omega
  have hsec : subInt64 t1.tvSec t0.tvSec = .ok (t1.tvSec - t0.tvSec) := subInt64_eq (by omega)
  have hnsec : subInt64 t1.tvNsec t0.tvNsec = .ok (t1.tvNsec - t0.tvNsec) := subInt64_eq (by omega)
  unfold elapsedNanos codeNanos
  by_cases he : t0.tvSec = t1.tvSec
  · rw [hsec, ← he]
    have h0 : UInt64.ofInt 0 = 0 := rfl
    simp [hnsec, h0]
  · have hsub (z : ℤ) : UInt64.ofInt (1000000000 - z) = .ofInt 1000000000 - .ofInt z := by
      rw [Int.sub_eq_add_neg, UInt64.ofInt_add, UInt64.ofInt_neg, UInt64.sub_eq_add_neg]
    simp [hsec, hz, he, hsub]

/-- Seconds `2^63` apart overflow. -/
theorem elapsedNanos_undefined {t0 t1 : Timespec} (hs : 2 ^ 63 ≤ t1.tvSec - t0.tvSec) :
    elapsedNanos t0 t1 = .error .undefined := by
  have h : subInt64 t1.tvSec t0.tvSec = .error .undefined := if_neg (by omega)
  unfold elapsedNanos
  simp [h]

/-- The count is exact iff it fits a word and the error of the nanoseconds is zero. -/
theorem exact_iff_codeNanos {t0 t1 : Timespec} (h : t0 ≤ t1) :
    Exact t0 t1 ↔ t1.nanos - t0.nanos < 2 ^ 64 ∧ codeNanos t0 t1 = t1.tvNsec - t0.tvNsec := by
  have h0 := t0.nsec_lt
  have h1 := t1.nsec_lt
  have hle := Timespec.le_iff_nanos.mp h
  have herr : codeNanos t0 t1 - (t1.tvNsec - t0.tvNsec) < 2 ^ 64 ∧
      -2 ^ 64 < codeNanos t0 t1 - (t1.tvNsec - t0.tvNsec) := by
    unfold codeNanos
    split <;> omega
  unfold Timespec.nanos at hle ⊢
  by_cases hs : t1.tvSec - t0.tvSec < 2 ^ 63
  · have hcount := elapsedNanos_spec h hs
    constructor
    · rintro ⟨n, hn, hexact⟩
      cases hcount.symm.trans hn
      rw [toNat_ofInt] at hexact
      unfold Timespec.nanos at hexact
      omega
    · rintro ⟨hlt, hnanos⟩
      refine ⟨_, hcount, ?_⟩
      rw [toNat_ofInt]
      unfold Timespec.nanos
      omega
  · constructor
    · rintro ⟨n, hn, -⟩
      cases (elapsedNanos_undefined (by omega)).symm.trans hn
    · rintro ⟨hlt, -⟩
      omega

/-- The count is exact iff the readings are regular. -/
theorem exact_iff_regular {t0 t1 : Timespec} (h : t0 ≤ t1) : Exact t0 t1 ↔ Regular t0 t1 := by
  have h0 := t0.nsec_lt
  have h1 := t1.nsec_lt
  rw [exact_iff_codeNanos h]
  unfold Regular codeNanos Timespec.nanos
  split <;> omega

/-! ### Consequences -/

theorem Exact.nanos_eq {t0 t1 : Timespec} {n : UInt64} (h : Exact t0 t1)
    (hn : elapsedNanos t0 t1 = .ok n) : (n.toNat : ℤ) = t1.nanos - t0.nanos := by
  obtain ⟨m, hm, hexact⟩ := h
  cases hm.symm.trans hn
  exact hexact

theorem elapsedNanos_mono {t0 t1 t2 : Timespec} {n m : UInt64} (h12 : t1 ≤ t2)
    (hx1 : Exact t0 t1) (hx2 : Exact t0 t2) (hn : elapsedNanos t0 t1 = .ok n)
    (hm : elapsedNanos t0 t2 = .ok m) : n ≤ m := by
  have h1 := hx1.nanos_eq hn
  have h2 := hx2.nanos_eq hm
  have h := Timespec.le_iff_nanos.mp h12
  rw [UInt64.le_iff_toNat_le]
  omega

theorem elapsedNanos_add {t0 t1 t2 : Timespec} {n m k : UInt64} (hx1 : Exact t0 t1)
    (hx2 : Exact t1 t2) (hx3 : Exact t0 t2) (hn : elapsedNanos t0 t1 = .ok n)
    (hm : elapsedNanos t1 t2 = .ok m) (hk : elapsedNanos t0 t2 = .ok k) :
    k.toNat = n.toNat + m.toNat := by
  have h1 := hx1.nanos_eq hn
  have h2 := hx2.nanos_eq hm
  have h3 := hx3.nanos_eq hk
  omega

/-- **The count of a timer is exact iff the readings are regular**; and counts of regular readings
are monotone and add up. -/
theorem elapsed_iff (t0 t1 t2 : Timespec) (h01 : t0 ≤ t1) (h12 : t1 ≤ t2) :
    (Exact t0 t1 ↔ Regular t0 t1) ∧
      (Regular t0 t1 → Regular t0 t2 → ∀ n m, elapsedNanos t0 t1 = .ok n →
        elapsedNanos t0 t2 = .ok m → n ≤ m) ∧
      (Regular t0 t1 → Regular t1 t2 → Regular t0 t2 → ∀ n m k, elapsedNanos t0 t1 = .ok n →
        elapsedNanos t1 t2 = .ok m → elapsedNanos t0 t2 = .ok k → k.toNat = n.toNat + m.toNat) := by
  have h02 : t0 ≤ t2 := by
    rw [Timespec.le_iff_nanos] at h01 h12 ⊢
    omega
  have hiff := exact_iff_regular h01
  refine ⟨hiff, fun h1 h2 n m hn hm => ?_, fun h1 h2 h3 n m k hn hm hk => ?_⟩
  · exact elapsedNanos_mono h12 (hiff.mpr h1) ((exact_iff_regular h02).mpr h2) hn hm
  · exact elapsedNanos_add (hiff.mpr h1) ((exact_iff_regular h12).mpr h2)
      ((exact_iff_regular h02).mpr h3) hn hm hk

/-- The reading at a second and a millisecond. -/
def reading (sec msec : Fin 1000) : Timespec :=
  ⟨sec, msec * 1000000, by omega, by omega⟩

/-- A reading, one in the same second, and one in the next with the nanoseconds half a second on. -/
theorem elapsed_iff_three :
    (Exact (reading 5 100) (reading 5 400) ↔ Regular (reading 5 100) (reading 5 400)) ∧
      Regular (reading 5 100) (reading 5 400) ∧
      ∀ n m, elapsedNanos (reading 5 100) (reading 5 400) = .ok n →
        elapsedNanos (reading 5 100) (reading 6 600) = .ok m → n ≤ m :=
  have h := elapsed_iff (reading 5 100) (reading 5 400) (reading 6 600) (by decide) (by decide)
  ⟨h.1, by decide, h.2.1 (by decide) (by decide)⟩

/-- From 0.9 s to 1.0 s the code counts 2.9 s. -/
theorem elapsed_wrong : ¬ Exact (reading 0 900) (reading 1 0) ∧
    elapsedNanos (reading 0 900) (reading 1 0) = .ok 2900000000 ∧
    (reading 1 0).nanos - (reading 0 900).nanos = 100000000 := by
  have h : elapsedNanos (reading 0 900) (reading 1 0) = .ok 2900000000 := by rfl
  refine ⟨?_, h, by decide⟩
  rintro ⟨n, hn, hexact⟩
  cases h.symm.trans hn
  revert hexact
  decide

end Optics.Timers
