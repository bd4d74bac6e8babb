import Mathlib.Logic.Relation

/-! # Runs of a transition system

A system is given by its start states and its step relation. What holds at the start and is kept by
every step holds in every reachable state (`Reachable.invariant`); a step may use that the state it
leaves is reachable as well (`Reachable.tail`). -/

namespace Optics.Lib.Runs

variable {σ : Type*} {start : σ → Prop} {step : σ → σ → Prop}

/-- The states some run from a start state reaches. -/
def Reachable (start : σ → Prop) (step : σ → σ → Prop) (s : σ) : Prop :=
  ∃ s0, start s0 ∧ Relation.ReflTransGen step s0 s

theorem Reachable.of_start {s : σ} (h : start s) : Reachable start step s := ⟨s, h, .refl⟩

theorem Reachable.tail {s s' : σ} (h : Reachable start step s) (hs : step s s') :
    Reachable start step s' := by
  obtain ⟨s0, h0, hr⟩ := h
  exact ⟨s0, h0, hr.tail hs⟩

/-- **Invariants.** What every start state has and every step keeps, every reachable state has. -/
theorem Reachable.invariant {I : σ → Prop} (h0 : ∀ s, start s → I s)
    (hs : ∀ s s', I s → step s s' → I s') {s : σ} (h : Reachable start step s) : I s := by
  obtain ⟨s0, hs0, hr⟩ := h
  induction hr with
  | refl => exact h0 _ hs0
  | tail _ hstep ih => exact hs _ _ ih hstep

end Optics.Lib.Runs
