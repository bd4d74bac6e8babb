import Mathlib.Logic.Function.Basic
import Mathlib.Tactic.ByContra
import Mathlib.Tactic.Use

/-! # A lock word and who is behind it

A lock is a word that is set by who enters and cleared by who leaves. `Guarded` says that the word is
set exactly while somebody is inside and that nobody else is; a party that enters while the word is
clear, leaves while it is inside, or does neither keeps it so (`Guarded.update`). -/

namespace Optics.Lib.SpinLock

variable {ι : Type*} {lock lock' : Bool} {holds : ι → Bool}

/-- **The word tells whether somebody is inside, and at most one is.** -/
structure Guarded (lock : Bool) (holds : ι → Bool) : Prop where
  iff : lock = true ↔ ∃ i, holds i = true
  unique : ∀ i j, holds i = true → holds j = true → i = j

/-- How the word and the party at it may change together: not at all, by an entry, by an exit. -/
def Turn (lock before lock' after : Bool) : Prop :=
  (lock' = lock ∧ after = before) ∨ (lock = false ∧ lock' = true ∧ after = true) ∨
    (before = true ∧ lock' = false ∧ after = false)

theorem guarded_nobody : Guarded false fun _ : ι => false :=
  ⟨by simp, fun _ _ h => by cases h⟩

theorem Guarded.free (h : Guarded lock holds) (hl : lock = false) (i : ι) : holds i = false := by
  by_contra hi
  have := h.iff.mpr ⟨i, by simpa using hi⟩
  rw [hl] at this
  cases this

theorem Guarded.others (h : Guarded lock holds) {i j : ι} (hi : holds i = true) (hj : j ≠ i) :
    holds j = false := by
  by_contra hn
  exact hj (h.unique j i (by simpa using hn) hi)

/-- **One party takes a turn.** -/
theorem Guarded.update [DecidableEq ι] (h : Guarded lock holds) {i : ι} {after : Bool}
    (ht : Turn lock (holds i) lock' after) : Guarded lock' (Function.update holds i after) := by
  rcases ht with ⟨rfl, rfl⟩ | ⟨hl, rfl, rfl⟩ | ⟨hi, rfl, rfl⟩
  · rwa [Function.update_eq_self]
  · -- whoever is inside now is the one that entered
    have hother : ∀ j, Function.update holds i true j = true → j = i := fun j hj => by
      by_contra hne
      rw [Function.update_of_ne hne, h.free hl j] at hj
      cases hj
    exact ⟨⟨fun _ => ⟨i, Function.update_self ..⟩, fun _ => rfl⟩,
      fun j k hj hk => (hother j hj).trans (hother k hk).symm⟩
  · have hnone : ∀ j, Function.update holds i false j ≠ true := fun j hj => by
      rcases eq_or_ne j i with rfl | hne
      · rw [Function.update_self] at hj
        cases hj
      · rw [Function.update_of_ne hne, h.others hi hne] at hj
        cases hj
    refine ⟨⟨Bool.noConfusion, ?_⟩, fun j _ hj => absurd hj (hnone j)⟩
    rintro ⟨j, hj⟩
    exact absurd hj (hnone j)

theorem Guarded.goto [DecidableEq ι] {τ : Type*} {pcs : ι → τ} {inside : τ → Bool}
    (h : Guarded lock fun i => inside (pcs i)) {i : ι} {t : τ}
    (ht : Turn lock (inside (pcs i)) lock' (inside t)) :
    Guarded lock' fun j => inside (Function.update pcs i t j) := by
  have := h.update ht
  rwa [show Function.update (fun j => inside (pcs j)) i (inside t) =
    fun j => inside (Function.update pcs i t j) from
      funext fun j => (Function.apply_update (fun _ => inside) pcs i t j).symm] at this

end Optics.Lib.SpinLock
