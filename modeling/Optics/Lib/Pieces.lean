import Mathlib.Data.List.Basic
import Mathlib.Tactic.SplitIfs

/-! # The pieces of a list between separators

A list is cut at each separator and the empty pieces are left out (`pieces`). A scan from the left
that only knows whether it is inside a piece finds where the pieces start (`starts`); the elements from
a start up to the next separator are the piece (`map_starts`). -/

namespace Optics.Lib.Pieces

variable {α : Type*} [DecidableEq α] (sep : α)

/-- The pieces that are not empty. -/
def pieces (l : List α) : List (List α) := (l.splitOn sep).filter (· ≠ [])

/-- The positions where pieces start, of a list that begins at position `i`, inside a piece or not. -/
def starts : Bool → ℕ → List α → List ℕ
  | _, _, [] => []
  | inside, i, x :: l =>
    if x = sep then starts false (i + 1) l
    else if inside then starts true (i + 1) l
    else i :: starts true (i + 1) l

/-- The elements from a position up to the next separator. -/
def pieceAt (l : List α) (p : ℕ) : List α := (l.drop p).takeWhile (· ≠ sep)

variable {sep}

theorem splitOn_cons_sep (l : List α) : (sep :: l).splitOn sep = [] :: l.splitOn sep := by
  rw [List.splitOn_cons_eq_if_modifyHead, if_pos (beq_self_eq_true sep)]

theorem splitOn_cons_ne {x : α} (hx : x ≠ sep) (l : List α) :
    (x :: l).splitOn sep = (l.splitOn sep).modifyHead (x :: ·) := by
  rw [List.splitOn_cons_eq_if_modifyHead, if_neg (by simpa using hx)]

variable (sep) in
theorem splitOn_eq : ∀ l : List α, ∃ t, l.splitOn sep = l.takeWhile (· ≠ sep) :: t
  | [] => ⟨[], rfl⟩
  | x :: l => by
    obtain ⟨t, ht⟩ := splitOn_eq l
    by_cases hx : x = sep
    · subst hx
      refine ⟨l.splitOn x, ?_⟩
      rw [splitOn_cons_sep, List.takeWhile_cons_of_neg (by simp)]
    · refine ⟨t, ?_⟩
      rw [splitOn_cons_ne hx, ht, List.modifyHead_cons, List.takeWhile_cons_of_pos (by simpa using hx)]

theorem pieces_cons_sep (l : List α) : pieces sep (sep :: l) = pieces sep l := by
  unfold pieces
  rw [splitOn_cons_sep, List.filter_cons_of_neg (by simp)]

/-- A scan of the rest of a list finds the pieces of the rest; inside a piece, the ones behind it. -/
theorem map_starts_drop {s : List α} : ∀ {l : List α} {i : ℕ}, s.drop i = l →
    (starts sep false i l).map (pieceAt sep s) = pieces sep l ∧
    (starts sep true i l).map (pieceAt sep s) = (l.splitOn sep).tail.filter (· ≠ [])
  | [], _, _ => ⟨rfl, rfl⟩
  | x :: l, i, hl => by
    have hnext : s.drop (i + 1) = l := by
      rw [← List.drop_drop, hl]
      rfl
    obtain ⟨hout, hin⟩ := map_starts_drop hnext
    by_cases hx : x = sep
    · subst hx
      rw [starts, starts, if_pos rfl, if_pos rfl, hout, pieces_cons_sep, splitOn_cons_sep]
      exact ⟨rfl, rfl⟩
    · obtain ⟨t, ht⟩ := splitOn_eq sep l
      have htail : (x :: l).splitOn sep = (x :: l.takeWhile (· ≠ sep)) :: (l.splitOn sep).tail := by
        rw [splitOn_cons_ne hx, ht]
        rfl
      have hpiece : pieceAt sep s i = x :: l.takeWhile (· ≠ sep) := by
        rw [pieceAt, hl, List.takeWhile_cons_of_pos (by simpa using hx)]
      constructor
      · rw [starts, if_neg hx, if_neg (by simp), List.map_cons, hin, hpiece, pieces, htail,
          List.filter_cons_of_pos (by simp)]
      · rw [starts, if_neg hx, if_pos rfl, hin, htail, List.tail_cons]

/-- **The scan finds the pieces.** -/
theorem map_starts (l : List α) :
    (starts sep false 0 l).map (pieceAt sep l) = pieces sep l := (map_starts_drop rfl).1

theorem mem_starts {inside : Bool} : ∀ {l : List α} {i p : ℕ}, p ∈ starts sep inside i l →
    i ≤ p ∧ p < i + l.length := by
  intro l
  induction l generalizing inside with
  | nil => intro i p hp; cases hp
  | cons x l ih =>
    intro i p hp
    rw [List.length_cons]
    rw [starts] at hp
    split_ifs at hp
    · have := ih hp
      omega
    · have := ih hp
      omega
    · rcases List.mem_cons.mp hp with rfl | hp
      · omega
      · have := ih hp
        omega

end Optics.Lib.Pieces
