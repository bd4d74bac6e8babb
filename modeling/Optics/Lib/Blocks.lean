import Mathlib.Data.Set.Insert

/-! # Blocks on a heap

Blocks are numbered as they are allocated, and a number is not used again; a block that is not there
cannot be freed, so that one that has been freed is not freed again. `Grown` says which blocks a piece
of code owns over the heap it started from: an allocation adds one (`Grown.alloc`), a free takes one
away (`Grown.free`), and when all are freed the heap is what it was (`Grown.freeAll`). -/

namespace Optics.Lib.Blocks

/-- The number of the next block, and what the blocks hold. -/
structure Heap (α : Type*) where
  next : ℕ
  cell : ℕ → Option α

variable {α : Type*}

/-- A heap without blocks; the address zero is never given out. -/
def Heap.empty : Heap α := ⟨1, fun _ => none⟩

/-- A new block. -/
def alloc (h : Heap α) (a : α) : ℕ × Heap α :=
  (h.next, ⟨h.next + 1, fun p => if p = h.next then some a else h.cell p⟩)

/-- A block is given back, if it is there. -/
def free (h : Heap α) (p : ℕ) : Option (Heap α) :=
  if (h.cell p).isSome then some ⟨h.next, fun q => if q = p then none else h.cell q⟩ else none

/-- One block after the other. -/
def freeAll : List ℕ → Heap α → Option (Heap α)
  | [], h => some h
  | p :: ps, h => (free h p).bind (freeAll ps)

/-- No block has been given out beyond the next number. -/
def Fresh (h : Heap α) : Prop := ∀ p, h.next ≤ p → h.cell p = none

/-- Since `h0`, the blocks of `owned` have been allocated, and all others are as they were. -/
structure Grown (h0 h : Heap α) (owned : Set ℕ) : Prop where
  base : Fresh h0
  next : h0.next ≤ h.next
  fresh : Fresh h
  live : ∀ p ∈ owned, h0.next ≤ p ∧ (h.cell p).isSome
  frame : ∀ p ∉ owned, h.cell p = h0.cell p

theorem fresh_empty : Fresh (Heap.empty : Heap α) := fun _ _ => rfl

theorem alloc_cell (h : Heap α) (a : α) : (alloc h a).2.cell h.next = some a := if_pos rfl

theorem alloc_cell_of_ne (h : Heap α) (a : α) {p : ℕ} (hp : p ≠ h.next) :
    (alloc h a).2.cell p = h.cell p := if_neg hp

variable {h0 h : Heap α} {owned : Set ℕ}

namespace Grown

theorem refl (hf : Fresh h) : Grown h h ∅ where
  base := hf
  next := le_rfl
  fresh := hf
  live p hp := absurd hp (Set.notMem_empty p)
  frame _ _ := rfl

/-- One piece of code after the other, the first of which has freed its blocks. -/
theorem trans {h1 : Heap α} (hg1 : Grown h0 h1 ∅) (hg : Grown h1 h owned) : Grown h0 h owned where
  base := hg1.base
  next := hg1.next.trans hg.next
  fresh := hg.fresh
  live p hp := ⟨hg1.next.trans (hg.live p hp).1, (hg.live p hp).2⟩
  frame p hp := (hg.frame p hp).trans (hg1.frame p (Set.notMem_empty p))

theorem lt_next (hg : Grown h0 h owned) {p : ℕ} (hp : p ∈ owned) : p < h.next := by
  by_contra hc
  have hlive := (hg.live p hp).2
  rw [hg.fresh p (by omega)] at hlive
  cases hlive

/-- **A block allocated** is owned. -/
theorem alloc (hg : Grown h0 h owned) (a : α) :
    Grown h0 (alloc h a).2 (insert h.next owned) where
  base := hg.base
  next := hg.next.trans (Nat.le_succ _)
  fresh p hp := by
    have hlt : h.next < p := hp
    rw [alloc_cell_of_ne h a hlt.ne']
    exact hg.fresh p hlt.le
  live p hp := by
    rcases hp with rfl | hp
    · exact ⟨hg.next, by simp [alloc_cell]⟩
    · rw [alloc_cell_of_ne h a (hg.lt_next hp).ne]
      exact hg.live p hp
  frame p hp := by
    simp only [Set.mem_insert_iff, not_or] at hp
    rw [alloc_cell_of_ne h a hp.1]
    exact hg.frame p hp.2

/-- **A block freed** is no longer owned; the others keep what they hold. -/
theorem free (hg : Grown h0 h owned) {p : ℕ} (hp : p ∈ owned) :
    ∃ h', free h p = some h' ∧ Grown h0 h' (owned \ {p}) ∧ ∀ q, q ≠ p → h'.cell q = h.cell q := by
  obtain ⟨hge, hlive⟩ := hg.live p hp
  refine ⟨_, if_pos hlive, ⟨hg.base, hg.next, fun q hq => ?_, fun q hq => ?_, fun q hq => ?_⟩,
    fun q hq => if_neg hq⟩
  · simpa using fun _ => hg.fresh q hq
  · simpa [Set.mem_singleton_iff.not.mp hq.2] using hg.live q hq.1
  · by_cases hqp : q = p
    · simp [hqp, hg.base p hge]
    · simpa [hqp] using hg.frame q fun hc => hq ⟨hc, hqp⟩

/-- **All blocks freed**, each once: the heap is what it was. -/
theorem freeAll : ∀ {ps : List ℕ} {h : Heap α} {owned : Set ℕ}, Grown h0 h owned → ps.Nodup →
    (∀ p, p ∈ ps ↔ p ∈ owned) → ∃ h', freeAll ps h = some h' ∧ Grown h0 h' ∅
  | [], h, owned, hg, _, hall => by
    have hnone : owned = ∅ := by simpa [Set.eq_empty_iff_forall_notMem] using hall
    exact ⟨h, rfl, hnone ▸ hg⟩
  | p :: ps, h, owned, hg, hnd, hall => by
    obtain ⟨hp, hnd⟩ := List.nodup_cons.mp hnd
    obtain ⟨h1, hfree, hg1, -⟩ := hg.free ((hall p).mp List.mem_cons_self)
    obtain ⟨h', hrest, hg'⟩ := freeAll hg1 hnd fun q => by
      rw [Set.mem_sdiff, Set.mem_singleton_iff, ← hall, List.mem_cons]
      constructor
      · exact fun hq => ⟨.inr hq, fun hc => hp (hc ▸ hq)⟩
      · exact fun ⟨hq, hne⟩ => hq.resolve_left hne
    exact ⟨h', by rw [Blocks.freeAll, hfree, Option.bind_some, hrest], hg'⟩

end Grown

end Optics.Lib.Blocks
