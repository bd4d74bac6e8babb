import Optics.Lenses

/-! # Bounds of shared memory

`region_ptr` compares the end of a block, a sum of two words that wraps around, with the end of the
region; `lens_ptr` asks it twice, the second time with a length it has just read from memory that
other processes write to. A pointer should be had exactly for the blocks inside the region (`Fits`).

* `regionPtr_iff`: the check lets through the blocks inside, and every block with a sum of `2^64` or
  more (`Wraps`);
* `lensPtr_iff`: a lens is returned iff its header passes and the sum of its whole extent does once
  it is cut to a word;
* `bounds_iff`: the bounds hold exactly where no sum wraps back into the region. -/

namespace Optics.RegionBounds

open Optics.Base Optics.Lib.Bytes Optics.Regions Optics.Allocator Optics.Lenses

/-- The block lies between the header and the end of the region. -/
def Fits (r : Region) (off len : ℕ) : Prop :=
  r.minPos ≤ off ∧ off + len ≤ r.pos

/-- The block starts inside the region and ends beyond the last word. -/
def Wraps (r : Region) (off len : ℕ) : Prop :=
  r.minPos ≤ off ∧ off ≤ r.pos ∧ 2 ^ 64 ≤ off + len

/-- The length of a lens with its header and name, without wrap-around. -/
def extent (m : Mem) (lens : ℕ) : ℕ := sizeofLens + nameLen m lens + lensLen m lens

/-- The header of the lens passes the check, and the end of the lens wraps back into the region. -/
def LensWraps (s : Arena) (off : ℕ) : Prop :=
  (Fits s.region off sizeofLens ∨ Wraps s.region off sizeofLens) ∧
    2 ^ 64 ≤ off + extent s.mem off ∧ (off + extent s.mem off) % 2 ^ 64 ≤ s.region.pos

instance decidableFits (r : Region) (off len : ℕ) : Decidable (Fits r off len) :=
  inferInstanceAs (Decidable (_ ∧ _))

instance decidableWraps (r : Region) (off len : ℕ) : Decidable (Wraps r off len) :=
  inferInstanceAs (Decidable (_ ∧ _))

/-! ### The check of a block -/

/-- What `region_ptr` checks. -/
theorem regionPtr_isSome_iff (r : Region) (off len : ℕ) :
    (regionPtr r off len).isSome ↔
      r.minPos ≤ off ∧ off ≤ r.pos ∧ (off + len) % 2 ^ 64 ≤ r.pos := by
  unfold regionPtr regionPtrUnsafe w64
  split_ifs with h1 h2
  · simp only [Option.isSome_none, Bool.false_eq_true, false_iff]
    omega
  · simp only [Option.isSome_none, Bool.false_eq_true, false_iff]
    omega
  · simp only [Option.isSome_some, true_iff]
    omega

/-- **The check of a block** lets through what fits and what wraps. -/
theorem regionPtr_iff {r : Region} (off : ℕ) {len : ℕ} (hpos : r.pos < 2 ^ 64) (hlen : len < 2 ^ 64) :
    (regionPtr r off len).isSome ↔ Fits r off len ∨ Wraps r off len := by
  rw [regionPtr_isSome_iff]
  unfold Fits Wraps
  by_cases hwrap : 2 ^ 64 ≤ off + len
  · -- the sum less `2^64` is below `off`
    have hmod (h : off ≤ r.pos) : (off + len) % 2 ^ 64 = off + len - 2 ^ 64 := by
      rw [Nat.mod_eq_sub_mod hwrap, Nat.mod_eq_of_lt (by omega)]
    constructor
    · rintro ⟨h1, h2, -⟩
      exact Or.inr ⟨h1, h2, hwrap⟩
    · rintro (⟨h1, h2⟩ | ⟨h1, h2, -⟩)
      · omega
      · refine ⟨h1, h2, ?_⟩
        rw [hmod h2]
        omega
  · rw [Nat.mod_eq_of_lt (by omega)]
    omega

theorem not_fits_of_wraps {r : Region} {off len : ℕ} (hpos : r.pos < 2 ^ 64)
    (h : Wraps r off len) : ¬ Fits r off len := by
  unfold Wraps at h
  unfold Fits
  omega

/-- The check is sound and complete iff the block does not wrap. -/
theorem regionPtr_sound_iff {r : Region} {off len : ℕ} (hpos : r.pos < 2 ^ 64)
    (hlen : len < 2 ^ 64) :
    ((regionPtr r off len).isSome ↔ Fits r off len) ↔ ¬ Wraps r off len := by
  rw [regionPtr_iff _ hpos hlen]
  constructor
  · intro h hwrap
    exact not_fits_of_wraps hpos hwrap (h.mp (Or.inr hwrap))
  · intro hwrap
    exact or_iff_left hwrap

/-! ### The check of a lens -/

/-- The length cut to a word before or after the addition ends at the same place. -/
theorem add_lensTotalLen_mod (m : Mem) (off : ℕ) :
    (off + lensTotalLen m off) % 2 ^ 64 = (off + extent m off) % 2 ^ 64 := by
  unfold lensTotalLen w64 extent
  rw [Nat.add_mod_mod]

/-- **The check of a lens**: the header passes, and the end of the lens does as a word. -/
theorem lensPtr_iff {s : Arena} {off : ℕ} (hpos : s.region.pos < 2 ^ 64) :
    (lensPtr s off).isSome ↔
      (Fits s.region off sizeofLens ∨ Wraps s.region off sizeofLens) ∧
        (off + extent s.mem off) % 2 ^ 64 ≤ s.region.pos := by
  have hhead := regionPtr_iff off hpos (show sizeofLens < 2 ^ 64 by decide)
  unfold lensPtr
  cases hptr : regionPtr s.region off sizeofLens with
  | none =>
    rw [hptr] at hhead
    simp [← hhead]
  | some lens =>
    rw [hptr] at hhead
    obtain ⟨rfl, hmin, hle⟩ := regionPtr_eq_some hptr
    simp only [regionPtr_isSome_iff, add_lensTotalLen_mod]
    constructor
    · rintro ⟨-, -, hend⟩
      exact ⟨hhead.mp rfl, hend⟩
    · rintro ⟨-, hend⟩
      exact ⟨hmin, hle, hend⟩

/-- The check of a lens is sound iff the lens does not wrap back into the region. -/
theorem lensPtr_sound_iff {s : Arena} {off : ℕ} (hpos : s.region.pos < 2 ^ 64) :
    ((lensPtr s off).isSome → Fits s.region off (extent s.mem off)) ↔ ¬ LensWraps s off := by
  rw [lensPtr_iff hpos]
  unfold LensWraps
  constructor
  · rintro h ⟨hhead, hge, hend⟩
    obtain ⟨-, hfit⟩ := h ⟨hhead, hend⟩
    omega
  · rintro hwrap ⟨hhead, hend⟩
    have hlt : off + extent s.mem off < 2 ^ 64 := by
      by_contra hge
      exact hwrap ⟨hhead, by omega, hend⟩
    have hmin : s.region.minPos ≤ off := hhead.elim (fun h => h.1) (fun h => h.1)
    rw [Nat.mod_eq_of_lt hlt] at hend
    exact ⟨hmin, hend⟩

/-- **The bounds are sound iff no end wraps back into the region.** -/
theorem bounds_iff (s : Arena) (off len : ℕ) (hpos : s.region.pos < 2 ^ 64)
    (hlen : len < 2 ^ 64) :
    (((regionPtr s.region off len = some off) ↔ Fits s.region off len) ↔
        ¬ Wraps s.region off len) ∧
      ((∀ lens, lensPtr s off = some lens → Fits s.region off (extent s.mem off)) ↔
        ¬ LensWraps s off) := by
  have hsome : regionPtr s.region off len = some off ↔ (regionPtr s.region off len).isSome := by
    constructor
    · intro h
      rw [h]
      rfl
    · intro h
      obtain ⟨p, hp⟩ := Option.isSome_iff_exists.mp h
      rw [hp, (regionPtr_eq_some hp).1]
  refine ⟨?_, ?_⟩
  · rw [hsome]
    exact regionPtr_sound_iff hpos hlen
  · rw [← lensPtr_sound_iff hpos, Option.isSome_iff_exists]
    simp only [forall_exists_index]

/-- A region of one MiB with a header of 4 KiB, and a lens of the given lengths behind it. -/
def oneLens (nameLen lensLen : ℕ) : Arena where
  region := ⟨true, 4096, 1048576, 1048576⟩
  file := ⟨1048576, store64 (store64 (fun _ => 0) 4104 lensLen) 4112 nameLen⟩
  alloc := fun _ => ⟨0, 0⟩

theorem bounds_iff_oneLens :
    ((regionPtr (oneLens 4 16).region 4096 80 = some 4096 ↔ Fits (oneLens 4 16).region 4096 80) ↔
        ¬ Wraps (oneLens 4 16).region 4096 80) ∧ ¬ Wraps (oneLens 4 16).region 4096 80 :=
  ⟨(bounds_iff (oneLens 4 16) 4096 80 (by decide) (by decide)).1,
    by decide⟩

/-- A block of `2^64 - 4096` bytes at 4096, and a lens of `2^64` bytes there, are let through. -/
theorem bounds_wrap :
    (regionPtr (oneLens 1 (2 ^ 64 - 65)).region 4096 (2 ^ 64 - 4096) = some 4096 ∧
        ¬ Fits (oneLens 1 (2 ^ 64 - 65)).region 4096 (2 ^ 64 - 4096)) ∧
      lensPtr (oneLens 1 (2 ^ 64 - 65)) 4096 = some 4096 ∧
        ¬ Fits (oneLens 1 (2 ^ 64 - 65)).region 4096
          (extent (oneLens 1 (2 ^ 64 - 65)).mem 4096) := by
  decide

end Optics.RegionBounds
