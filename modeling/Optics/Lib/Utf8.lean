import Mathlib.Data.UInt
import Mathlib.Data.List.Basic
import Mathlib.Tactic.SplitIfs
import Mathlib.Tactic.Use

/-! # UTF-8

A machine that reads a text byte by byte, and the texts it accepts. An ASCII byte can only stand
between characters, so that it cuts a text into two (`isUtf8_cut`). -/

namespace Optics.Lib.Utf8

/-- What is to follow: some continuation bytes, the first of them between `lo` and `hi`. -/
structure State where
  owed : ℕ
  lo : UInt8
  hi : UInt8

/-- Between characters. -/
def State.start : State := ⟨0, 0x80, 0xbf⟩

/-- The first byte of a character. Overlong forms, surrogates and numbers from `0x110000` on are ruled
out by the range of the byte behind it. -/
def lead (b : UInt8) : Option State :=
  if b < 0x80 then some .start
  else if 0xc2 ≤ b ∧ b ≤ 0xdf then some ⟨1, 0x80, 0xbf⟩
  else if b = 0xe0 then some ⟨2, 0xa0, 0xbf⟩
  else if b = 0xed then some ⟨2, 0x80, 0x9f⟩
  else if 0xe1 ≤ b ∧ b ≤ 0xef then some ⟨2, 0x80, 0xbf⟩
  else if b = 0xf0 then some ⟨3, 0x90, 0xbf⟩
  else if 0xf1 ≤ b ∧ b ≤ 0xf3 then some ⟨3, 0x80, 0xbf⟩
  else if b = 0xf4 then some ⟨3, 0x80, 0x8f⟩
  else none

def next (q : State) (b : UInt8) : Option State :=
  if q.owed = 0 then lead b
  else if 0x80 ≤ b ∧ q.lo ≤ b ∧ b ≤ q.hi then some ⟨q.owed - 1, 0x80, 0xbf⟩
  else none

def run (q : State) (s : List UInt8) : Option State := s.foldlM next q

/-- The text is UTF-8. -/
def IsUtf8 (s : List UInt8) : Prop := ∃ q, run .start s = some q ∧ q.owed = 0

theorem isUtf8_nil : IsUtf8 [] := ⟨.start, rfl, rfl⟩

theorem run_append (q : State) (s t : List UInt8) :
    run q (s ++ t) = (run q s).bind fun q' => run q' t := List.foldlM_append ..

/-- **An ASCII byte** stands between characters. -/
theorem next_ascii {q q' : State} {c : UInt8} (hc : c < 0x80) :
    next q c = some q' ↔ q.owed = 0 ∧ q' = .start := by
  unfold next
  by_cases h0 : q.owed = 0
  · rw [if_pos h0, lead, if_pos hc]
    simp [h0, eq_comm]
  · rw [if_neg h0, if_neg fun h => UInt8.not_lt.mpr h.1 hc]
    simp [h0]

/-- **A text is cut** by an ASCII byte. -/
theorem isUtf8_cut {s t : List UInt8} {c : UInt8} (hc : c < 0x80) :
    IsUtf8 (s ++ c :: t) ↔ IsUtf8 s ∧ IsUtf8 t := by
  unfold IsUtf8
  rw [run_append]
  constructor
  · rintro ⟨q, h, hq⟩
    obtain ⟨q1, h1, h⟩ := Option.bind_eq_some_iff.mp h
    obtain ⟨q2, h2, h⟩ := Option.bind_eq_some_iff.mp h
    obtain ⟨h0, rfl⟩ := (next_ascii hc).mp h2
    exact ⟨⟨q1, h1, h0⟩, q, h, hq⟩
  · rintro ⟨⟨q1, h1, h0⟩, q, h, hq⟩
    refine ⟨q, ?_, hq⟩
    have h2 : next q1 c = some .start := (next_ascii hc).mpr ⟨h0, rfl⟩
    rw [h1, Option.bind_some]
    exact Option.bind_eq_some_iff.mpr ⟨.start, h2, h⟩

theorem isUtf8_cons {t : List UInt8} {c : UInt8} (hc : c < 0x80) : IsUtf8 (c :: t) ↔ IsUtf8 t := by
  have h := @isUtf8_cut [] t c hc
  rw [List.nil_append] at h
  rw [h]
  exact and_iff_right isUtf8_nil

/-- A text of ASCII bytes. -/
def Ascii (s : List UInt8) : Prop := ∀ c ∈ s, c < 0x80

theorem Ascii.append {s t : List UInt8} (hs : Ascii s) (ht : Ascii t) : Ascii (s ++ t) := by
  intro c hc
  rcases List.mem_append.mp hc with hc | hc
  · exact hs c hc
  · exact ht c hc

theorem Ascii.cons {c : UInt8} {s : List UInt8} (hc : c < 0x80) (hs : Ascii s) : Ascii (c :: s) := by
  intro x hx
  rcases List.mem_cons.mp hx with rfl | hx
  · exact hc
  · exact hs x hx

theorem Ascii.isUtf8 : ∀ {s : List UInt8}, Ascii s → IsUtf8 s
  | [], _ => isUtf8_nil
  | c :: _, h => (isUtf8_cons (h c List.mem_cons_self)).mpr
      (Ascii.isUtf8 fun x hx => h x (List.mem_cons_of_mem c hx))

end Optics.Lib.Utf8
