import Optics.Lib.Blocks
import Mathlib.Data.List.Perm.Basic
import Mathlib.Logic.Function.Basic

/-! # Blocks held by parties

Parties that each hold some of the blocks of a heap: every block there is has one holder (`Held`). A
party takes a new block (`Held.alloc`), gives one back (`Held.free`) or all it has (`Held.freeAll`);
none of this touches what the others hold. -/

namespace Optics.Lib.Holdings

open Optics.Lib.Blocks

variable {α ι : Type*}

/-- The blocks of the heap are those that are held, each by one party and once. -/
structure Held (h : Heap α) (held : ι → List ℕ) : Prop where
  fresh : Fresh h
  nodup : ∀ i, (held i).Nodup
  unique : ∀ i j p, p ∈ held i → p ∈ held j → i = j
  live : ∀ p, (h.cell p).isSome ↔ ∃ i, p ∈ held i

theorem held_empty {held : ι → List ℕ} (h : ∀ i, held i = []) :
    Held (Heap.empty : Heap α) held where
  fresh := fresh_empty
  nodup i := by simp [h i]
  unique i j p hi := by simp [h i] at hi
  live p := by simp [h, Heap.empty]

namespace Held

variable {h : Heap α} {held : ι → List ℕ}

theorem isSome (hh : Held h held) {i : ι} {p : ℕ} (hp : p ∈ held i) : (h.cell p).isSome :=
  (hh.live p).mpr ⟨i, hp⟩

theorem lt_next (hh : Held h held) {i : ι} {p : ℕ} (hp : p ∈ held i) : p < h.next := by
  by_contra hc
  have hlive := hh.isSome hp
  rw [hh.fresh p (by omega)] at hlive
  cases hlive

variable [DecidableEq ι] {i : ι} {l : List ℕ}

theorem keep (hh : Held h held) (hl : l.Perm (held i)) : Held h (Function.update held i l) := by
  have hmem (j : ι) (p : ℕ) : p ∈ Function.update held i l j ↔ p ∈ held j := by
    by_cases hj : j = i
    · rw [hj, Function.update_self, hl.mem_iff]
    · rw [Function.update_of_ne hj]
  refine ⟨hh.fresh, fun j => ?_, fun j k p hj hk => ?_, fun p => ?_⟩
  · by_cases hj : j = i
    · rw [hj, Function.update_self, hl.nodup_iff]
      exact hh.nodup i
    · rw [Function.update_of_ne hj]
      exact hh.nodup j
  · exact hh.unique j k p ((hmem j p).mp hj) ((hmem k p).mp hk)
  · simp only [hh.live, hmem]

/-- **A party takes a new block.** -/
theorem alloc (hh : Held h held) (a : α) (hl : l.Perm (h.next :: held i)) :
    Held (alloc h a).2 (Function.update held i l) := by
  have hnew (j : ι) : h.next ∉ held j := fun hp => absurd (hh.lt_next hp) (lt_irrefl _)
  have hmem (j : ι) (p : ℕ) :
      p ∈ Function.update held i l j ↔ (j = i ∧ p = h.next) ∨ p ∈ held j := by
    by_cases hj : j = i
    · simp [hj, hl.mem_iff]
    · simp [hj]
  refine ⟨fun p hp => ?_, fun j => ?_, fun j k p hj hk => ?_, fun p => ?_⟩
  · have hlt : h.next < p := hp
    rw [alloc_cell_of_ne h a hlt.ne']
    exact hh.fresh p hlt.le
  · by_cases hj : j = i
    · rw [hj, Function.update_self, hl.nodup_iff, List.nodup_cons]
      exact ⟨hnew i, hh.nodup i⟩
    · rw [Function.update_of_ne hj]
      exact hh.nodup j
  · rw [hmem] at hj hk
    rcases hj with ⟨rfl, rfl⟩ | hj
    · exact (hk.resolve_right (hnew k)).1.symm
    · rcases hk with ⟨rfl, rfl⟩ | hk
      · exact absurd hj (hnew j)
      · exact hh.unique j k p hj hk
  · simp only [hmem]
    by_cases hp : p = h.next
    · simp [hp, alloc_cell]
    · rw [alloc_cell_of_ne h a hp, hh.live]
      simp [hp]

/-- **A party gives a block back.** -/
theorem free (hh : Held h held) {p : ℕ} (hl : (held i).Perm (p :: l)) : ∃ h', free h p = some h' ∧
    Held h' (Function.update held i l) ∧ ∀ q, q ≠ p → h'.cell q = h.cell q := by
  have hp : p ∈ held i := hl.mem_iff.mpr List.mem_cons_self
  have hnd : (p :: l).Nodup := hl.nodup_iff.mp (hh.nodup i)
  have hpl : p ∉ l := (List.nodup_cons.mp hnd).1
  have hmem (j : ι) (q : ℕ) : q ∈ Function.update held i l j ↔ q ≠ p ∧ q ∈ held j := by
    by_cases hj : j = i
    · rw [hj, Function.update_self, hl.mem_iff, List.mem_cons]
      constructor
      · exact fun hq => ⟨fun hc => hpl (hc ▸ hq), .inr hq⟩
      · exact fun ⟨hne, hq⟩ => hq.resolve_left hne
    · rw [Function.update_of_ne hj]
      exact ⟨fun hq => ⟨fun hc => hj (hh.unique j i p (hc ▸ hq) hp), hq⟩, fun hq => hq.2⟩
  refine ⟨⟨h.next, fun q => if q = p then none else h.cell q⟩, if_pos (hh.isSome hp),
    ⟨fun q hq => ?_, fun j => ?_, fun j k q hj hk => ?_, fun q => ?_⟩, fun q hq => if_neg hq⟩
  · simpa using fun _ => hh.fresh q hq
  · by_cases hj : j = i
    · rw [hj, Function.update_self]
      exact (List.nodup_cons.mp hnd).2
    · rw [Function.update_of_ne hj]
      exact hh.nodup j
  · exact hh.unique j k q ((hmem j q).mp hj).2 ((hmem k q).mp hk).2
  · simp only [hmem]
    by_cases hq : q = p
    · simp [hq]
    · simp [hq, hh.live]

/-- **A party gives all its blocks back.** -/
theorem freeAll (hh : Held h held) : ∃ h', freeAll (held i) h = some h' ∧
    Held h' (Function.update held i []) ∧ ∀ q, q ∉ held i → h'.cell q = h.cell q := by
  suffices hgen : ∀ (ps : List ℕ) {h : Heap α} {held : ι → List ℕ}, Held h held → held i = ps →
      ∃ h', Blocks.freeAll ps h = some h' ∧ Held h' (Function.update held i []) ∧
        ∀ q, q ∉ ps → h'.cell q = h.cell q from hgen (held i) hh rfl
  intro ps
  induction ps with
  | nil =>
    intro h held hh hps
    exact ⟨h, rfl, hh.keep (by rw [hps]), fun _ _ => rfl⟩
  | cons p ps ih =>
    intro h held hh hps
    obtain ⟨h1, hfree, hh1, hframe1⟩ := hh.free (i := i) (l := ps) (by rw [hps])
    obtain ⟨h', hrest, hh', hframe⟩ := ih hh1 (Function.update_self i ps held)
    rw [Function.update_idem] at hh'
    refine ⟨h', ?_, hh', fun q hq => ?_⟩
    · rw [Blocks.freeAll, hfree, Option.bind_some, hrest]
    · rw [List.mem_cons, not_or] at hq
      rw [hframe q hq.2, hframe1 q hq.1]

end Held

end Optics.Lib.Holdings
