import Mathlib.Data.Vector.Basic
import Mathlib.Data.List.Basic

/-! # Arrays whose cells may be uninitialised

An array of a fixed number of cells, each with a value or with none yet. A load is defined inside the
array and where there is a value, a store inside the array; `copy` copies cell by cell. An array
`Holds` the list of the values it starts with.

* `Holds.load`: the cells of the list are defined;
* `Holds.store`, `Holds.push`: a store into the list, and one behind it;
* `Holds.copy`: a part of a list is put behind another one. -/

namespace Optics.Lib.Arrays

variable {α : Type} {N : ℕ}

/-- An array of `N` cells. -/
abbrev Cells (α : Type) (N : ℕ) := Vector (Option α) N

/-- The value of a cell. -/
def load (a : Cells α N) (i : ℕ) : Option α := if h : i < N then a[i] else none

/-- A value put into a cell. -/
def store (a : Cells α N) (i : ℕ) (v : α) : Option (Cells α N) :=
  if h : i < N then some (a.set i (some v) h) else none

/-- The values of `n` cells from the one at `start` on, put into the cells from the one at `i` on. -/
def copy (dst : Cells α N) (i : ℕ) (src : Cells α N) (start : ℕ) : ℕ → Option (Cells α N)
  | 0 => some dst
  | n + 1 => do
    let dst ← copy dst i src start n
    let v ← load src (start + n)
    store dst (i + n) v

/-- The first cells hold the values of a list. -/
def Holds (a : Cells α N) (l : List α) : Prop := ∀ i (h : i < l.length), load a i = some l[i]

variable {a src : Cells α N} {l l' : List α}

theorem load_lt {i : ℕ} {v : α} (h : load a i = some v) : i < N := by
  by_contra hge
  rw [load, dif_neg hge] at h
  cases h

theorem load_set {i j : ℕ} {v : α} (h : i < N) :
    load (a.set i (some v) h) j = if j = i then some v else load a j := by
  unfold load
  by_cases hj : j < N
  · rw [dif_pos hj, dif_pos hj, Vector.getElem_set]
    by_cases hij : i = j
    · rw [if_pos hij, if_pos hij.symm]
    · rw [if_neg hij, if_neg (Ne.symm hij)]
  · have hne : j ≠ i := fun hji => hj (hji ▸ h)
    rw [dif_neg hj, if_neg hne, dif_neg hj]

theorem holds_nil (a : Cells α N) : Holds a [] := fun _ h => absurd h (Nat.not_lt_zero _)

theorem Holds.length_le (h : Holds a l) : l.length ≤ N := by
  by_contra hlt
  exact (load_lt (h N (Nat.lt_of_not_le hlt))).false

theorem Holds.store (h : Holds a l) {i : ℕ} (hi : i < l.length) (v : α) :
    ∃ a', store a i v = some a' ∧ Holds a' (l.set i v) := by
  have hN : i < N := hi.trans_le h.length_le
  refine ⟨a.set i (some v) hN, dif_pos hN, fun j hj => ?_⟩
  rw [load_set, List.getElem_set]
  by_cases hij : i = j
  · rw [if_pos hij.symm, if_pos hij]
  · rw [if_neg (Ne.symm hij), if_neg hij]
    exact h j (by rwa [List.length_set] at hj)

theorem Holds.push (h : Holds a l) (hl : l.length < N) (v : α) :
    ∃ a', Arrays.store a l.length v = some a' ∧ Holds a' (l ++ [v]) := by
  refine ⟨a.set l.length (some v) hl, dif_pos hl, fun j hj => ?_⟩
  rw [List.length_append, List.length_singleton] at hj
  rw [load_set]
  rcases Nat.lt_succ_iff_lt_or_eq.mp hj with hlt | heq
  · rw [if_neg hlt.ne, List.getElem_append_left hlt]
    exact h j hlt
  · subst heq
    rw [if_pos rfl, List.getElem_concat_length rfl]

/-- **A part of a list** is put behind another one. -/
theorem Holds.copy (h : Holds a l) (hsrc : Holds src l') (start : ℕ) : ∀ n,
    start + n ≤ l'.length → l.length + n ≤ N →
      ∃ a', Arrays.copy a l.length src start n = some a' ∧ Holds a' (l ++ (l'.drop start).take n)
  | 0, _, _ => ⟨a, rfl, by rwa [List.take_zero, List.append_nil]⟩
  | n + 1, hn, hN => by
    obtain ⟨a1, hcopy, h1⟩ := h.copy hsrc start n (by omega) (by omega)
    have hlen : (l ++ (l'.drop start).take n).length = l.length + n := by
      rw [List.length_append, List.length_take, List.length_drop]
      omega
    obtain ⟨a2, hstore, h2⟩ := h1.push (by omega) l'[start + n]
    rw [hlen] at hstore
    refine ⟨a2, ?_, ?_⟩
    · rw [Arrays.copy, hcopy, Option.bind_eq_bind, Option.bind_some, hsrc _ (by omega)]
      exact hstore
    · have htake : (l'.drop start).take (n + 1) = (l'.drop start).take n ++ [l'[start + n]] := by
        rw [List.take_add_one, List.getElem?_drop, List.getElem?_eq_getElem (by omega)]
        rfl
      rw [htake, ← List.append_assoc]
      exact h2

end Optics.Lib.Arrays
