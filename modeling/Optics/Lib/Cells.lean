import Mathlib.Data.List.Basic
import Mathlib.Logic.Function.Basic

/-! # Cells that are worked on one at a time

A list of actions, each on the cell at a place of its own, that may fail. What becomes of a cell is
decided by the actions at its place alone: the list runs to its end exactly if the actions at each
place do, and leaves there what they leave (`runAll_iff`). -/

namespace Optics.Lib.Cells

variable {ι κ ε : Type}

/-- An action on the cell at a place. -/
structure Action (ι κ ε : Type) where
  place : ι
  act : κ → Except ε κ

/-- What is done to one cell, one after the other. -/
def runCell : List (κ → Except ε κ) → κ → Except ε κ
  | [], c => .ok c
  | act :: acts, c => do
    let c ← act c
    runCell acts c

theorem bind_ok_iff {α β : Type} {x : Except ε α} {f : α → Except ε β} {b : β} :
    x >>= f = .ok b ↔ ∃ a, x = .ok a ∧ f a = .ok b := by
  rcases x with e | a
  · refine ⟨?_, ?_⟩
    · intro h
      cases h
    · rintro ⟨a, h, -⟩
      cases h
  · refine ⟨fun h => ⟨a, rfl, h⟩, ?_⟩
    rintro ⟨a', h, h'⟩
    cases h
    exact h'

variable [DecidableEq ι]

/-- The actions one after the other. -/
def runAll : List (Action ι κ ε) → (ι → κ) → Except ε (ι → κ)
  | [], w => .ok w
  | a :: acts, w => do
    let c ← a.act (w a.place)
    runAll acts (Function.update w a.place c)

theorem runAll_append (acts acts' : List (Action ι κ ε)) (w : ι → κ) :
    runAll (acts ++ acts') w = runAll acts w >>= runAll acts' := by
  induction acts generalizing w with
  | nil => rfl
  | cons a acts ih =>
    rw [List.cons_append, runAll, runAll]
    rcases a.act (w a.place) with e | c
    · rfl
    · exact ih _

/-- What is done at a place. -/
def actsAt (i : ι) (acts : List (Action ι κ ε)) : List (κ → Except ε κ) :=
  (acts.filter fun a => a.place = i).map Action.act

theorem actsAt_cons_self (a : Action ι κ ε) (acts : List (Action ι κ ε)) :
    actsAt a.place (a :: acts) = a.act :: actsAt a.place acts := by
  simp [actsAt]

theorem actsAt_cons_of_ne {a : Action ι κ ε} {i : ι} (h : a.place ≠ i)
    (acts : List (Action ι κ ε)) : actsAt i (a :: acts) = actsAt i acts := by
  simp [actsAt, h]

theorem actsAt_append (i : ι) (acts acts' : List (Action ι κ ε)) :
    actsAt i (acts ++ acts') = actsAt i acts ++ actsAt i acts' := by
  simp [actsAt]

/-- **Each cell by itself.** -/
theorem runAll_iff {acts : List (Action ι κ ε)} {w w' : ι → κ} :
    runAll acts w = .ok w' ↔ ∀ i, runCell (actsAt i acts) (w i) = .ok (w' i) := by
  induction acts generalizing w with
  | nil => simp [runAll, actsAt, runCell, funext_iff]
  | cons a acts ih =>
    simp only [runAll, bind_ok_iff, ih]
    constructor
    · rintro ⟨c, hact, hrest⟩ i
      by_cases hi : a.place = i
      · subst hi
        rw [actsAt_cons_self, runCell, bind_ok_iff]
        exact ⟨c, hact, by simpa using hrest a.place⟩
      · rw [actsAt_cons_of_ne hi]
        simpa [Function.update_of_ne (Ne.symm hi)] using hrest i
    · intro h
      have hself := h a.place
      rw [actsAt_cons_self, runCell, bind_ok_iff] at hself
      obtain ⟨c, hact, hself⟩ := hself
      refine ⟨c, hact, fun i => ?_⟩
      by_cases hi : a.place = i
      · subst hi
        simpa using hself
      · have hother := h i
        rw [actsAt_cons_of_ne hi] at hother
        simpa [Function.update_of_ne (Ne.symm hi)] using hother

end Optics.Lib.Cells
