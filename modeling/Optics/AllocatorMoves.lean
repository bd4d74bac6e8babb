import Optics.AllocatorInv

/-! # Blocks on their way

The operations of the allocator taken apart, as threads between two of their accesses see them: a
block that is off its list and not cleared yet (`Inv.take`), a slab that is cut and not on a list yet
(`Inv.grow`), its blocks linked up in front of the list (`Inv.splice`), a block whose link is stored
and that becomes the head of the `free` list (`Inv.push`). A block on its way is listed with those of
the callers, the blocks of a slab with the length of their class. -/

namespace Optics.AllocatorInv

open Optics.Base Optics.Lib.Bytes Optics.Lib.LinkedList Optics.Lib.Tiling
open Optics.Regions Optics.Allocator

/-! ### Lengths -/

theorem classOf_classLen (c : Fin allocClasses) : classOf (classLen c) = c := by
  revert c; decide

@[simp] theorem classOf_roundLen (len : ℕ) : classOf (roundLen len) = classOf len :=
  classOf_classLen _

@[simp] theorem roundLen_roundLen (len : ℕ) : roundLen (roundLen len) = roundLen len := by
  unfold roundLen; rw [classOf_classLen]

theorem roundLen_le (len : ℕ) : roundLen len ≤ allocMaxLen := by
  unfold roundLen; generalize classOf len = c; revert c; decide

theorem liveBlocks_slab (len off k : ℕ) :
    liveBlocks (slab off (roundLen len) k) = slab off (roundLen len) k := by
  unfold liveBlocks
  rw [slab_eq_map, List.map_map]
  refine List.map_congr_left fun i _ => ?_
  simp

theorem liveBlocks_append (l l' : List Block) :
    liveBlocks (l ++ l') = liveBlocks l ++ liveBlocks l' := List.map_append

theorem classBlocks_append (c : Fin allocClasses) (l l' : List ℕ) :
    classBlocks c (l ++ l') = classBlocks c l ++ classBlocks c l' := List.map_append

section Inv
variable {lo : ℕ} {s : Arena} {live : List Block} {A F : Fin allocClasses → List ℕ}

/-- **Taking a block.** The head of a list goes to a caller, its contents as they are. -/
theorem Inv.take (h : Inv lo s live A F) {len off : ℕ} (hlen : len ≤ allocMaxLen) {l : List ℕ}
    (hA : A (classOf len) = off :: l) :
    Inv lo (s.setClass (classOf len) { s.alloc (classOf len) with alloc := load64 s.mem off })
      ((off, len) :: live) (Function.update A (classOf len) l) F :=
  -- `Inv.pop` clears the block as well; its old contents are as good as any
  (h.pop hlen hA).write (b := (off, len)) List.mem_cons_self (m := s.mem) fun b hb =>
    (sameOff_fill s.mem off 0 (roundLen len) b hb).symm

/-- **A slab is cut** where the region ended; its blocks are in the hands of the caller. -/
theorem Inv.grow (h : Inv lo s live A F) {r' : Region} {f' : File} {len k : ℕ}
    (hlen : len ≤ allocMaxLen) (hown : r'.Owner f') (hmem : f'.mem = s.mem)
    (hmin : r'.minPos = s.region.minPos) (hpos : r'.pos = s.region.pos + (k + 1) * roundLen len) :
    Inv lo ⟨r', f', s.alloc⟩ ((s.region.pos, len) ::
      Lib.Tiling.slab (s.region.pos + roundLen len) (roundLen len) k ++ live) A F := by
  have hle := h.lo_le
  refine ⟨hown, h.lo_pos, hmin ▸ h.minPos_le, by dsimp only; omega, fun b hb => ?_, fun c => ?_,
    fun c => ?_, ?_⟩
  · rw [List.cons_append, List.mem_cons, List.mem_append] at hb
    rcases hb with rfl | hb | hb
    · exact hlen
    · rw [slab_eq_map, List.mem_map] at hb
      obtain ⟨i, -, rfl⟩ := hb
      exact roundLen_le len
    · exact h.live_len b hb
  · simpa only [Arena.mem, hmem] using h.alloc_chain c
  · simpa only [Arena.mem, hmem] using h.free_chain c
  · refine h.tiles.extend (fun a => ?_) hle (by dsimp only; omega)
    have h2 := cover_slab (roundLen len) (k + 1) s.region.pos a
    rw [Lib.Tiling.slab, cover_cons] at h2
    rw [List.cons_append, liveBlocks_cons, liveBlocks_append, liveBlocks_slab]
    simp only [cover_append, cover_cons (_, _) (_ ++ _), hpos]
    omega

/-- **A slab joins its list.** Its blocks, linked up in front of the list, are free. -/
theorem Inv.splice {len off k : ℕ}
    (h : Inv lo s (Lib.Tiling.slab off (roundLen len) k ++ live) A F) (hoff : off ≠ 0)
    (hseg : Seg (load64 s.mem) off (slabOffs off (roundLen len) k)
      (s.alloc (classOf len)).alloc) :
    Inv lo (s.setClass (classOf len) { s.alloc (classOf len) with alloc := off }) live
      (Function.update A (classOf len) (slabOffs off (roundLen len) k ++ A (classOf len))) F := by
  refine ⟨h.owner, h.lo_pos, h.minPos_le, h.lo_le,
    fun b hb => h.live_len b (List.mem_append_right _ hb), fun c => ?_, fun c => ?_, fun a => ?_⟩
  · rcases eq_or_ne c (classOf len) with rfl | hne
    · simp only [setClass_alloc, Function.update_self, setClass_mem]
      refine ⟨hseg.append (h.alloc_chain _).1, fun h0 => ?_⟩
      rcases List.mem_append.mp h0 with h0 | h0
      · obtain ⟨i, -, hi⟩ := mem_slabOffs.mp h0
        omega
      · exact (h.alloc_chain _).2 h0
    · simpa [Function.update_of_ne hne] using h.alloc_chain c
  · rcases eq_or_ne c (classOf len) with rfl | hne
    · simpa using h.free_chain (classOf len)
    · simpa [Function.update_of_ne hne] using h.free_chain c
  · refine Eq.trans ?_ (h.tiles a)
    have h1 := cover_update A (classOf len)
      (slabOffs off (roundLen len) k ++ A (classOf len)) a
    have h2 : classBlocks (classOf len) (slabOffs off (roundLen len) k) =
        Lib.Tiling.slab off (roundLen len) k := classBlocks_slabOffs _ off k
    rw [classBlocks_append, cover_append, h2] at h1
    rw [liveBlocks_append, liveBlocks_slab]
    simp only [cover_append]
    omega

/-- **A block joins the `free` list**, its link being the old head. -/
theorem Inv.push {len off : ℕ} (h : Inv lo s ((off, len) :: live) A F)
    (hlink : load64 s.mem off = (s.alloc (classOf len)).free) :
    Inv lo (s.setClass (classOf len) { s.alloc (classOf len) with free := off }) live A
      (Function.update F (classOf len) (off :: F (classOf len))) := by
  have hin := h.live_inside List.mem_cons_self
  have hlo := h.lo_pos
  refine ⟨h.owner, h.lo_pos, h.minPos_le, h.lo_le, fun b hb => h.live_len b (by simp [hb]),
    fun c => ?_, fun c => ?_, fun a => ?_⟩
  · rcases eq_or_ne c (classOf len) with rfl | hne
    · simpa using h.alloc_chain (classOf len)
    · simpa [Function.update_of_ne hne] using h.alloc_chain c
  · rcases eq_or_ne c (classOf len) with rfl | hne
    · simp only [setClass_alloc, Function.update_self, setClass_mem, chain_cons]
      refine ⟨trivial, by dsimp only at hin; omega, ?_⟩
      rw [hlink]
      exact h.free_chain _
    · simpa [Function.update_of_ne hne] using h.free_chain c
  · refine Eq.trans ?_ (h.tiles a)
    have h2 := cover_update F (classOf len) (off :: F (classOf len)) a
    rw [classBlocks_cons, cover_cons] at h2
    rw [liveBlocks_cons, cover_append, cover_append, cover_append, cover_append,
      cover_cons (_, _) (liveBlocks live)]
    simp only [roundLen] at h2 ⊢
    omega

end Inv

end Optics.AllocatorInv
