import Mathlib.Data.List.Basic

/-! # Lines and fields

A text of lines, each behind it a separator (`unlines`), and what a reader takes for its lines,
which leaves out a line that has no end yet (`lines`). A line with a separator in it is read as
several, so that lines come back exactly if they have none (`length_lines_iff`, `lines_unlines`). The
fields of a line are what `List.splitOn` makes of it; `splitOn_fields_iff` is the same result for a
line whose last fields are known to be clean. -/

namespace Optics.Lib.Lines

variable {α : Type*}

/-- Lines, each with its end. -/
def unlines (sep : α) (ls : List (List α)) : List α := ls.flatMap fun l => l ++ [sep]

theorem unlines_cons (sep : α) (l : List α) (ls : List (List α)) :
    unlines sep (l :: ls) = l ++ sep :: unlines sep ls := by
  simp [unlines]

variable [DecidableEq α]

/-- The lines of a text that have an end. -/
def lines (sep : α) (s : List α) : List (List α) := (s.splitOn sep).dropLast

variable {sep : α}

theorem splitOn_unlines (ls : List (List α)) (rest : List α) :
    (unlines sep ls ++ rest).splitOn sep = ls.flatMap (·.splitOn sep) ++ rest.splitOn sep := by
  induction ls with
  | nil => rfl
  | cons l ls ih =>
    rw [unlines_cons, List.append_assoc, List.cons_append, List.splitOn_append_cons_self, ih,
      List.flatMap_cons, List.append_assoc]

/-- **What is read of lines** and the start of one: the pieces of each line. -/
theorem lines_append (ls : List (List α)) {rest : List α} (h : sep ∉ rest) :
    lines sep (unlines sep ls ++ rest) = ls.flatMap (·.splitOn sep) := by
  rw [lines, splitOn_unlines, List.splitOn_eq_singleton h, List.dropLast_concat]

theorem one_le_length_splitOn (sep : α) (l : List α) : 1 ≤ (l.splitOn sep).length :=
  List.length_pos_iff.mpr (List.splitOn_ne_nil sep l)

theorem length_splitOn_iff {l : List α} : (l.splitOn sep).length = 1 ↔ sep ∉ l := by
  constructor
  · intro h hmem
    obtain ⟨s, t, rfl⟩ := List.append_of_mem hmem
    have h1 := one_le_length_splitOn sep s
    have h2 := one_le_length_splitOn sep t
    rw [List.splitOn_append_cons_self, List.length_append] at h
    omega
  · intro h
    rw [List.splitOn_eq_singleton h]
    rfl

theorem length_flatMap_splitOn (ls : List (List α)) :
    ls.length ≤ (ls.flatMap (·.splitOn sep)).length ∧
      ((ls.flatMap (·.splitOn sep)).length = ls.length → ∀ l ∈ ls, sep ∉ l) := by
  induction ls with
  | nil => simp
  | cons l ls ih =>
    have h1 := one_le_length_splitOn sep l
    obtain ⟨hle, hall⟩ := ih
    rw [List.flatMap_cons, List.length_append, List.length_cons]
    refine ⟨by omega, fun heq => ?_⟩
    rw [List.forall_mem_cons]
    exact ⟨length_splitOn_iff.mp (by omega), hall (by omega)⟩

theorem flatMap_splitOn {ls : List (List α)} (h : ∀ l ∈ ls, sep ∉ l) :
    ls.flatMap (·.splitOn sep) = ls := by
  induction ls with
  | nil => rfl
  | cons l ls ih =>
    rw [List.forall_mem_cons] at h
    rw [List.flatMap_cons, List.splitOn_eq_singleton h.1, ih h.2]
    rfl

/-- **Lines come back** if none has a separator in it. -/
theorem lines_unlines {ls : List (List α)} (h : ∀ l ∈ ls, sep ∉ l) {rest : List α}
    (hrest : sep ∉ rest) : lines sep (unlines sep ls ++ rest) = ls := by
  rw [lines_append ls hrest, flatMap_splitOn h]

/-- **As many lines are read as there are** exactly if none has a separator in it. -/
theorem length_lines_iff {ls : List (List α)} :
    (lines sep (unlines sep ls)).length = ls.length ↔ ∀ l ∈ ls, sep ∉ l := by
  have hread : lines sep (unlines sep ls ++ []) = _ := lines_append ls List.not_mem_nil
  rw [List.append_nil] at hread
  rw [hread]
  refine ⟨(length_flatMap_splitOn ls).2, fun h => ?_⟩
  rw [flatMap_splitOn h]

/-- **Fields behind a text** that have no separator in them. -/
theorem splitOn_fields {l : List α} : ∀ {fields : List (List α)}, (∀ f ∈ fields, sep ∉ f) →
    (l ++ fields.flatMap (sep :: ·)).splitOn sep = l.splitOn sep ++ fields
  | [], _ => by simp
  | f :: fields, h => by
    rw [List.forall_mem_cons] at h
    have ih := splitOn_fields (l := f) h.2
    rw [List.flatMap_cons, List.cons_append, List.splitOn_append_cons_self, ih,
      List.splitOn_eq_singleton h.1]
    rfl

theorem splitOn_fields_iff {l : List α} {fields : List (List α)} (h : ∀ f ∈ fields, sep ∉ f) :
    ((l ++ fields.flatMap (sep :: ·)).splitOn sep).length = fields.length + 1 ↔ sep ∉ l := by
  rw [splitOn_fields h, List.length_append, ← length_splitOn_iff]
  omega

end Optics.Lib.Lines
