import Mathlib.Logic.Basic

/-! # Computations that may fail, side by side

`Alike R x y`: either both return, with results that `R` relates, or both fail in the same way. It
goes through `do` blocks statement by statement (`Alike.bind`, `Alike.same`). -/

namespace Optics.Lib.Outcomes

variable {ε α β γ δ : Type}

/-- Both return, with related results, or both fail alike. -/
inductive Alike (R : α → β → Prop) : Except ε α → Except ε β → Prop
  | ok {a : α} {b : β} (h : R a b) : Alike R (.ok a) (.ok b)
  | error (e : ε) : Alike R (.error e) (.error e)

variable {R : α → β → Prop} {S : γ → δ → Prop} {x : Except ε α} {y : Except ε β}

theorem Alike.returns {b : β} (h : Alike R x y) (hy : y = .ok b) : ∃ a, x = .ok a ∧ R a b := by
  cases h with
  | ok hab =>
    cases hy
    exact ⟨_, rfl, hab⟩
  | error e => cases hy

theorem Alike.bind (h : Alike R x y) {f : α → Except ε γ} {g : β → Except ε δ}
    (hfg : ∀ a b, R a b → Alike S (f a) (g b)) : Alike S (x >>= f) (y >>= g) := by
  cases h with
  | ok hab => exact hfg _ _ hab
  | error e => exact .error e

theorem Alike.bind_left {S : γ → β → Prop} (h : Alike R x y) {f : α → Except ε γ}
    (hf : ∀ a b, R a b → Alike S (f a) (.ok b)) : Alike S (x >>= f) y := by
  cases h with
  | ok hab => exact hf _ _ hab
  | error e => exact .error e

theorem Alike.bind_right {S : α → δ → Prop} (h : Alike R x y) {g : β → Except ε δ}
    (hg : ∀ a b, R a b → Alike S (.ok a) (g b)) : Alike S x (y >>= g) := by
  cases h with
  | ok hab => exact hg _ _ hab
  | error e => exact .error e

theorem Alike.same {f : α → Except ε γ} {g : α → Except ε δ}
    (hfg : ∀ a, x = .ok a → Alike S (f a) (g a)) : Alike S (x >>= f) (x >>= g) := by
  cases x with
  | ok a => exact hfg a rfl
  | error e => exact .error e

end Optics.Lib.Outcomes
