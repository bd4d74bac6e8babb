import Mathlib.Data.List.Count
import Mathlib.Data.Set.Disjoint
import Mathlib.Order.CompletePartialOrder
import Mathlib.Order.Interval.Set.Disjoint
import Mathlib.Tactic.SplitIfs
import Mathlib.Tactic.Use
import Mathlib.Tactic.ByContra

/-! # Tilings of an interval by blocks

A block `(off, n)` covers the addresses `[off, off + n)`. A list of blocks tiles `[lo, hi)` if every
address inside is covered exactly once and no address outside is covered at all. Counting how often
an address is covered (`cover`) turns every rearrangement of the blocks into arithmetic: `cover` is
additive in the list, so moving a block from one list to another, and extending the interval by the
blocks of a new slab (`cover_slab`), are sums. -/

namespace Optics.Lib.Tiling

/-- A block of memory: its first address and its length. -/
abbrev Block := ℕ × ℕ

/-- The block covers the address. -/
def Covers (b : Block) (a : ℕ) : Prop := b.1 ≤ a ∧ a < b.1 + b.2

instance (b : Block) (a : ℕ) : Decidable (Covers b a) := by unfold Covers; infer_instance

/-- How many blocks of the list cover the address. -/
def cover (bs : List Block) (a : ℕ) : ℕ := bs.countP fun b => decide (Covers b a)

/-- **The blocks tile the interval.** -/
def Tiles (lo hi : ℕ) (bs : List Block) : Prop :=
  ∀ a, cover bs a = if lo ≤ a ∧ a < hi then 1 else 0

@[simp] theorem cover_nil (a : ℕ) : cover [] a = 0 := rfl

@[simp] theorem cover_append (bs bs' : List Block) (a : ℕ) :
    cover (bs ++ bs') a = cover bs a + cover bs' a := List.countP_append

theorem cover_cons (b : Block) (bs : List Block) (a : ℕ) :
    cover (b :: bs) a = cover [b] a + cover bs a := cover_append [b] bs a

theorem cover_singleton (b : Block) (a : ℕ) : cover [b] a = if Covers b a then 1 else 0 := by
  simp [cover, List.countP_cons]

theorem cover_perm {bs bs' : List Block} (h : bs.Perm bs') (a : ℕ) : cover bs a = cover bs' a :=
  h.countP_eq _

theorem cover_pos {bs : List Block} {b : Block} {a : ℕ} (hb : b ∈ bs) (ha : Covers b a) :
    0 < cover bs a := List.countP_pos_iff.mpr ⟨b, hb, by simpa using ha⟩

theorem exists_of_cover_pos {bs : List Block} {a : ℕ} (h : 0 < cover bs a) :
    ∃ b ∈ bs, Covers b a := by
  obtain ⟨b, hb, ha⟩ := List.countP_pos_iff.mp h
  exact ⟨b, hb, by simpa using ha⟩

/-! ### What a tiling says -/

section Tiles
variable {lo hi : ℕ} {bs : List Block}

theorem Tiles.cover_le_one (h : Tiles lo hi bs) (a : ℕ) : cover bs a ≤ 1 := by
  rw [h a]; split_ifs <;> omega

theorem Tiles.exists_covers (h : Tiles lo hi bs) {a : ℕ} (h1 : lo ≤ a) (h2 : a < hi) :
    ∃ b ∈ bs, Covers b a := by
  refine exists_of_cover_pos ?_
  rw [h a, if_pos ⟨h1, h2⟩]
  exact Nat.one_pos

theorem Tiles.unique (h : Tiles lo hi bs) {b b' : Block} {a : ℕ} (hb : b ∈ bs) (hb' : b' ∈ bs)
    (ha : Covers b a) (ha' : Covers b' a) : b' = b := by
  by_contra hne
  have h1 := h.cover_le_one a
  rw [cover_perm (List.perm_cons_erase hb), cover_cons, cover_singleton, if_pos ha] at h1
  have h2 := cover_pos ((List.mem_erase_of_ne hne).mpr hb') ha'
  omega

theorem Tiles.inside (h : Tiles lo hi bs) {b : Block} {a : ℕ} (hb : b ∈ bs) (ha : Covers b a) :
    lo ≤ a ∧ a < hi := by
  have := cover_pos hb ha
  rw [h a] at this
  by_contra hn
  rw [if_neg hn] at this
  omega

/-- **Blocks lie inside the interval.** -/
theorem Tiles.block_inside (h : Tiles lo hi bs) {b : Block} (hb : b ∈ bs) (hpos : 0 < b.2) :
    lo ≤ b.1 ∧ b.1 + b.2 ≤ hi := by
  have h1 := h.inside hb (a := b.1) ⟨le_rfl, by omega⟩
  have h2 := h.inside hb (a := b.1 + b.2 - 1) ⟨by omega, by omega⟩
  omega

/-- **Blocks are pairwise disjoint.** -/
theorem Tiles.pairwise (h : Tiles lo hi bs) :
    bs.Pairwise fun b b' => Disjoint (Set.Ico b.1 (b.1 + b.2)) (Set.Ico b'.1 (b'.1 + b'.2)) := by
  have hle := h.cover_le_one
  clear h
  induction bs with
  | nil => exact List.Pairwise.nil
  | cons b bs ih =>
    have hcons : ∀ a, cover [b] a + cover bs a ≤ 1 := fun a => by
      rw [← cover_cons]; exact hle a
    refine List.Pairwise.cons (fun b' hb' => ?_) (ih fun a => by have := hcons a; omega)
    rw [Set.disjoint_left]
    intro a ha ha'
    have h1 := hcons a
    have h2 := cover_pos hb' (a := a) ha'
    rw [cover_singleton, if_pos (show Covers b a from ha)] at h1
    omega

end Tiles

/-! ### Slabs -/

/-- The `k` blocks of length `n` that follow each other from `off` on. -/
def slab (off n : ℕ) : ℕ → List Block
  | 0 => []
  | k + 1 => (off, n) :: slab (off + n) n k

theorem slab_eq_map (n : ℕ) : ∀ (k off : ℕ),
    slab off n k = (List.range k).map fun i => (off + i * n, n)
  | 0, _ => rfl
  | k + 1, off => by
    rw [slab, slab_eq_map n k, List.range_succ_eq_map, List.map_cons, List.map_map, Nat.zero_mul,
      Nat.add_zero]
    congr 1
    refine List.map_congr_left fun i _ => ?_
    simp only [Function.comp_apply, Nat.succ_eq_add_one, Nat.succ_mul]
    rw [Nat.add_assoc, Nat.add_comm n]

/-- **The blocks of a slab tile it.** -/
theorem cover_slab (n : ℕ) : ∀ (k off a : ℕ),
    cover (slab off n k) a = if off ≤ a ∧ a < off + k * n then 1 else 0
  | 0, off, a => by simp [slab]
  | k + 1, off, a => by
    have hc : Covers (off, n) a ↔ off ≤ a ∧ a < off + n := Iff.rfl
    rw [slab, cover_cons, cover_singleton, cover_slab n k, Nat.succ_mul]
    simp only [hc]
    generalize k * n = x
    by_cases h1 : off ≤ a ∧ a < off + n
    · rw [if_pos h1, if_neg (by omega), if_pos (by omega)]
    · rw [if_neg h1, Nat.zero_add]
      exact if_congr (by omega) rfl rfl

theorem Tiles.extend {lo hi hi' : ℕ} {bs bs' : List Block} (h : Tiles lo hi bs)
    (hbs' : ∀ a, cover bs' a = cover bs a + if hi ≤ a ∧ a < hi' then 1 else 0) (h1 : lo ≤ hi)
    (h2 : hi ≤ hi') : Tiles lo hi' bs' := by
  intro a
  rw [hbs', h a]
  split_ifs <;> omega

end Optics.Lib.Tiling
