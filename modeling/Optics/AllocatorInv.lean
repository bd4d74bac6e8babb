import Optics.Allocator
import Optics.Lib.LinkedList
import Optics.Lib.Tiling
import Mathlib.Algebra.BigOperators.Fin

/-! # The allocator's partition invariant

The memory handed out by `region_grow` is, at any moment, cut into the blocks in the hands of callers
(`live`), the blocks on the `alloc` lists (`A`) and the blocks on the `free` lists (`F`): `Inv` says
that these tile the region from `lo`, the end of the header, to its current position, and that each
list is a chain in memory.

* `Inv.write`: whoever holds a block may write it.
* `allocAlloc_spec`, `allocFree_spec`: what the two operations do to the invariant. No assertion
  fires and no loop runs on. -/

namespace Optics.AllocatorInv

open Optics.Base Optics.Lib.Bytes Optics.Lib.LinkedList Optics.Lib.Tiling
open Optics.Regions Optics.Allocator

/-- The blocks of one list of class `c`. -/
def classBlocks (c : Fin allocClasses) (l : List ℕ) : List Block := l.map fun off => (off, classLen c)

/-- The blocks of a family of lists. -/
def listBlocks (A : Fin allocClasses → List ℕ) : List Block :=
  (List.finRange allocClasses).flatMap fun c => classBlocks c (A c)

/-- The blocks in the hands of callers, which know the length they asked for. -/
def liveBlocks (live : List Block) : List Block := live.map fun b => (b.1, roundLen b.2)

/-- **The partition invariant.** -/
structure Inv (lo : ℕ) (s : Arena) (live : List Block) (A F : Fin allocClasses → List ℕ) :
    Prop where
  owner : s.region.Owner s.file
  lo_pos : 0 < lo
  minPos_le : s.region.minPos ≤ lo
  lo_le : lo ≤ s.region.pos
  live_len : ∀ b ∈ live, b.2 ≤ allocMaxLen
  alloc_chain : ∀ c, Chain (load64 s.mem) (s.alloc c).alloc (A c)
  free_chain : ∀ c, Chain (load64 s.mem) (s.alloc c).free (F c)
  tiles : Tiles lo s.region.pos (liveBlocks live ++ listBlocks A ++ listBlocks F)

/-! ### Counting over the lists of a family -/

theorem cover_listBlocks (A : Fin allocClasses → List ℕ) (a : ℕ) :
    cover (listBlocks A) a = ∑ c, cover (classBlocks c (A c)) a := by
  rw [listBlocks, cover, List.countP_flatMap, Fin.sum_univ_def]
  rfl

/-- **Replacing one list of a family** exchanges its blocks for the new ones. -/
theorem cover_update (A : Fin allocClasses → List ℕ) (c : Fin allocClasses) (l : List ℕ) (a : ℕ) :
    cover (listBlocks (Function.update A c l)) a + cover (classBlocks c (A c)) a =
      cover (listBlocks A) a + cover (classBlocks c l) a := by
  have hc := Finset.mem_univ c
  have h1 := Finset.add_sum_erase Finset.univ (fun c => cover (classBlocks c (A c)) a) hc
  have h2 := Finset.add_sum_erase Finset.univ
    (fun c' => cover (classBlocks c' (Function.update A c l c')) a) hc
  have h3 : ∑ c' ∈ Finset.univ.erase c, cover (classBlocks c' (Function.update A c l c')) a =
      ∑ c' ∈ Finset.univ.erase c, cover (classBlocks c' (A c')) a := by
    refine Finset.sum_congr rfl fun c' hc' => ?_
    rw [Function.update_of_ne (Finset.ne_of_mem_erase hc')]
  rw [cover_listBlocks, cover_listBlocks]
  simp only [Function.update_self] at h2
  omega

theorem mem_listBlocks {A : Fin allocClasses → List ℕ} {c : Fin allocClasses} {n : ℕ}
    (h : n ∈ A c) : (n, classLen c) ∈ listBlocks A :=
  List.mem_flatMap.mpr ⟨c, List.mem_finRange c, List.mem_map.mpr ⟨n, h, rfl⟩⟩

theorem mem_liveBlocks {live : List Block} {b : Block} (h : b ∈ live) :
    (b.1, roundLen b.2) ∈ liveBlocks live := List.mem_map.mpr ⟨b, h, rfl⟩

@[simp] theorem classBlocks_nil (c : Fin allocClasses) : classBlocks c [] = [] := rfl

theorem classBlocks_cons (c : Fin allocClasses) (n : ℕ) (l : List ℕ) :
    classBlocks c (n :: l) = (n, classLen c) :: classBlocks c l := rfl

theorem liveBlocks_cons (b : Block) (live : List Block) :
    liveBlocks (b :: live) = (b.1, roundLen b.2) :: liveBlocks live := rfl

/-! ### Chains under writes -/

theorem chain_of_spared {m m' : Mem} {c : Fin allocClasses} {a : ℕ} {l : List ℕ}
    (h : Chain (load64 m) a l)
    (hm : ∀ n ∈ l, ∀ b, Covers (n, classLen c) b → m' b = m b) : Chain (load64 m') a l := by
  refine h.congr fun n hn => load_congr fun b h1 h2 => hm n hn b ⟨h1, ?_⟩
  have := classLen_ge c
  simp only
  omega

section Inv
variable {lo : ℕ} {s : Arena} {live : List Block} {A F : Fin allocClasses → List ℕ}

theorem Inv.cover_le_one (h : Inv lo s live A F) (a : ℕ) :
    cover (liveBlocks live) a + cover (listBlocks A) a + cover (listBlocks F) a ≤ 1 := by
  have := h.tiles.cover_le_one a
  simpa only [cover_append] using this

theorem Inv.list_inside (h : Inv lo s live A F) {c : Fin allocClasses} {n : ℕ}
    (hn : n ∈ A c ∨ n ∈ F c) : lo ≤ n ∧ n + classLen c ≤ s.region.pos := by
  refine h.tiles.block_inside (b := (n, classLen c)) ?_ (classLen_pos c)
  rcases hn with hn | hn
  · exact List.mem_append_left _ (List.mem_append_right _ (mem_listBlocks hn))
  · exact List.mem_append_right _ (mem_listBlocks hn)

theorem Inv.live_inside (h : Inv lo s live A F) {b : Block} (hb : b ∈ live) :
    lo ≤ b.1 ∧ b.1 + roundLen b.2 ≤ s.region.pos :=
  h.tiles.block_inside (b := (b.1, roundLen b.2))
    (List.mem_append_left _ (List.mem_append_left _ (mem_liveBlocks hb))) (classLen_pos _)

theorem Inv.ptr (h : Inv lo s live A F) {b : Block} (hb : b ∈ live) {k : ℕ}
    (hk : k ≤ roundLen b.2) : regionPtr s.region b.1 k = some b.1 := by
  have h1 := h.live_inside hb
  have h2 := h.minPos_le
  have h3 := h.owner.pos_lt
  exact regionPtr_some (by omega) (by omega) (by omega)

theorem Inv.head_lt (h : Inv lo s live A F) (c : Fin allocClasses) :
    (s.alloc c).alloc < 2 ^ 63 ∧ (s.alloc c).free < 2 ^ 63 := by
  have hpos := h.owner.pos_lt
  have key : ∀ {a : ℕ} {l : List ℕ}, Chain (load64 s.mem) a l →
      (∀ n ∈ l, n + classLen c ≤ s.region.pos) → a < 2 ^ 63 := by
    intro a l hc hl
    rcases Nat.eq_zero_or_pos a with rfl | ha
    · decide
    · obtain ⟨l', rfl, -⟩ := hc.uncons (by omega)
      have := hl a (by simp)
      omega
  exact ⟨key (h.alloc_chain c) fun n hn => (h.list_inside (Or.inl hn)).2,
    key (h.free_chain c) fun n hn => (h.list_inside (Or.inr hn)).2⟩

theorem chains_of_held {pos : ℕ} (ht : Tiles lo pos (liveBlocks live ++ listBlocks A ++ listBlocks F))
    {m m' : Mem} (hm : ∀ x, cover (liveBlocks live) x = 0 → m' x = m x)
    (c : Fin allocClasses) {a : ℕ} :
    (Chain (load64 m) a (A c) → Chain (load64 m') a (A c)) ∧
      (Chain (load64 m) a (F c) → Chain (load64 m') a (F c)) := by
  have hle : ∀ x, cover (liveBlocks live) x + cover (listBlocks A) x + cover (listBlocks F) x ≤ 1 := by
    intro x
    simpa only [cover_append] using ht.cover_le_one x
  constructor
  · refine fun hc => chain_of_spared (c := c) hc fun n hn x hx => hm x ?_
    have h1 := hle x
    have h2 := cover_pos (mem_listBlocks hn) hx
    omega
  · refine fun hc => chain_of_spared (c := c) hc fun n hn x hx => hm x ?_
    have h1 := hle x
    have h2 := cover_pos (mem_listBlocks hn) hx
    omega

theorem chains_of_live {pos : ℕ} (ht : Tiles lo pos (liveBlocks live ++ listBlocks A ++ listBlocks F))
    {b : Block} (hb : b ∈ live) {m m' : Mem} (hm : SameOff m m' b.1 (roundLen b.2))
    (c : Fin allocClasses) {a : ℕ} :
    (Chain (load64 m) a (A c) → Chain (load64 m') a (A c)) ∧
      (Chain (load64 m) a (F c) → Chain (load64 m') a (F c)) :=
  chains_of_held ht (fun x hx => hm x fun hx' =>
    absurd hx (cover_pos (mem_liveBlocks hb) hx').ne') c

theorem owner_setMem (ho : s.region.Owner s.file) {m : Mem}
    (hm : ∀ a, s.region.pos ≤ a → m a = s.mem a) :
    (s.setMem m).region.Owner (s.setMem m).file :=
  ⟨ho.owned, ho.pos_pos, ho.minPos_le, ho.pos_le, ho.vma_le, ho.vma_lt, ho.vma_ge,
    fun a ha => (hm a ha).trans (ho.zero a ha)⟩

/-- **Callers may write the blocks they hold.** -/
theorem Inv.write_held (h : Inv lo s live A F) {m : Mem}
    (hm : ∀ x, cover (liveBlocks live) x = 0 → m x = s.mem x) : Inv lo (s.setMem m) live A F := by
  refine ⟨owner_setMem h.owner fun a ha => hm a ?_, h.lo_pos, h.minPos_le, h.lo_le, h.live_len,
    fun c => ?_, fun c => ?_, h.tiles⟩
  · have h1 := h.tiles a
    rw [if_neg (by omega), cover_append, cover_append] at h1
    omega
  · exact (chains_of_held h.tiles hm c).1 (h.alloc_chain c)
  · exact (chains_of_held h.tiles hm c).2 (h.free_chain c)

/-- **A caller may write the block it holds.** -/
theorem Inv.write (h : Inv lo s live A F) {b : Block} (hb : b ∈ live) {m : Mem}
    (hm : SameOff s.mem m b.1 (roundLen b.2)) : Inv lo (s.setMem m) live A F :=
  h.write_held fun x hx => hm x fun hx' => absurd hx (cover_pos (mem_liveBlocks hb) hx').ne'

theorem Inv.perm (h : Inv lo s live A F) {live' : List Block} (hp : live.Perm live') :
    Inv lo s live' A F := by
  refine ⟨h.owner, h.lo_pos, h.minPos_le, h.lo_le, fun b hb => h.live_len b (hp.mem_iff.mpr hb),
    h.alloc_chain, h.free_chain, fun a => ?_⟩
  refine Eq.trans ?_ (h.tiles a)
  rw [cover_append, cover_append, cover_append, cover_append]
  unfold liveBlocks
  rw [cover_perm (hp.symm.map _)]

theorem Inv.live_disjoint (h : Inv lo s live A F) {l : List Block} {b b' : Block}
    (hl : live.Perm (b :: l)) (hb' : b' ∈ l) (x : ℕ) (hx : Covers (b.1, roundLen b.2) x) :
    ¬ Covers (b'.1, roundLen b'.2) x := by
  intro hx'
  have h1 := h.cover_le_one x
  have h2 : cover (liveBlocks live) x = 1 + cover (liveBlocks l) x := by
    rw [liveBlocks, cover_perm (List.Perm.map _ hl), ← liveBlocks, liveBlocks_cons, cover_cons,
      cover_singleton, if_pos hx]
  have h3 := cover_pos (mem_liveBlocks hb') hx'
  omega

theorem Inv.apart (h : Inv lo s live A F) {b b' : Block} (hb : b ∈ live) (hb' : b' ∈ live)
    (hne : b ≠ b') : b.1 + roundLen b.2 ≤ b'.1 ∨ b'.1 + roundLen b'.2 ≤ b.1 := by
  have hp := List.perm_cons_erase hb
  have hm : b' ∈ live.erase b := (List.mem_erase_of_ne hne.symm).mpr hb'
  have h1 : 0 < roundLen b.2 := classLen_pos _
  have h2 : 0 < roundLen b'.2 := classLen_pos _
  by_contra hn
  -- the later of the two starts would lie in both
  refine h.live_disjoint hp hm (max b.1 b'.1) ⟨le_max_left .., ?_⟩ ⟨le_max_right .., ?_⟩
  · dsimp only; omega
  · dsimp only; omega

theorem Inv.offs_nodup (h : Inv lo s live A F) : (live.map Prod.fst).Nodup := by
  have hp := (List.pairwise_append.mp (List.pairwise_append.mp h.tiles.pairwise).1).1
  unfold liveBlocks at hp
  rw [List.pairwise_map] at hp
  refine List.pairwise_map.mpr (hp.imp fun {b b'} hd he => ?_)
  have h1 : 0 < roundLen b.2 := classLen_pos _
  have h2 : 0 < roundLen b'.2 := classLen_pos _
  have hmem : b.1 ∈ Set.Ico b.1 (b.1 + roundLen b.2) := ⟨le_rfl, by omega⟩
  exact Set.disjoint_left.mp hd hmem ⟨by dsimp only; omega, by dsimp only; omega⟩

/-! ### Freeing -/

/-- **What `alloc_free` does.** The block moves from its holder to the `free` list of its class. -/
theorem allocFree_spec (h : Inv lo s live A F) {off len : ℕ} (hb : (off, len) ∈ live) :
    ∃ s', allocFree s off len = .ok s' ∧
      Inv lo s' (live.erase (off, len)) A
        (Function.update F (classOf len) (off :: F (classOf len))) ∧
      s'.region = s.region ∧ SameOff s.mem s'.mem off (roundLen len) := by
  have hlen := h.live_len _ hb
  have hin := h.live_inside hb
  have hoff : off ≠ 0 := by have := h.lo_pos; simp only at hin; omega
  have hge := classLen_ge (classOf len)
  have hold := (h.head_lt (classOf len)).2
  set m := store64 (fill s.mem off 0xFF (roundLen len)) off (s.alloc (classOf len)).free with hmdef
  have hm : SameOff s.mem m off (roundLen len) :=
    (sameOff_fill _ _ _ _).trans ((sameOff_store _ _ _ _).mono le_rfl (by unfold roundLen; omega))
  refine ⟨(s.setMem m).setClass (classOf len) { s.alloc (classOf len) with free := off }, ?_, ?_,
    rfl, hm⟩
  · unfold allocFree
    rw [opticsAssert_pos hlen, ok_bind, allocClass_eq hlen, ok_bind]
    simp only
    rw [h.ptr hb le_rfl]
  refine ⟨owner_setMem h.owner fun a ha => hm a (by simp only at hin; omega), h.lo_pos,
    h.minPos_le, h.lo_le, fun b hb' => h.live_len b (List.mem_of_mem_erase hb'), fun c => ?_,
    fun c => ?_, ?_⟩
  · have hc := (chains_of_live h.tiles hb hm c).1 (h.alloc_chain c)
    simp only [setClass_alloc, setMem_alloc]
    rcases eq_or_ne c (classOf len) with rfl | hne
    · rw [Function.update_self]; exact hc
    · rw [Function.update_of_ne hne]; exact hc
  · have hc := (chains_of_live h.tiles hb hm c).2 (h.free_chain c)
    simp only [setClass_alloc, setMem_alloc]
    rcases eq_or_ne c (classOf len) with rfl | hne
    · rw [Function.update_self, Function.update_self, chain_cons]
      refine ⟨rfl, hoff, ?_⟩
      have hnext : load64 m off = (s.alloc (classOf len)).free := load64_store64 (by omega)
      show Chain (load64 m) (load64 m off) _
      rw [hnext]; exact hc
    · rw [Function.update_of_ne hne, Function.update_of_ne hne]; exact hc
  · intro a
    refine Eq.trans ?_ (h.tiles a)
    have h2 := cover_update F (classOf len) (off :: F (classOf len)) a
    have h3 := cover_perm (List.Perm.map (fun b : Block => (b.1, roundLen b.2))
      (List.perm_cons_erase hb)) a
    rw [classBlocks_cons, cover_cons] at h2
    rw [← liveBlocks, ← liveBlocks, liveBlocks_cons, cover_cons] at h3
    simp only [cover_append, roundLen] at h2 h3 ⊢
    omega

/-! ### Allocating from a list -/

/-- Moving a `free` list over to an empty `alloc` list moves no block out of the class. -/
theorem Inv.drain (h : Inv lo s live A F) (c : Fin allocClasses) :
    ∃ A' F', Inv lo (s.setClass c (drainFree (s.alloc c))) live A' F' ∧
      ∀ c', A' c' ++ F' c' = A c' ++ F c' := by
  by_cases h0 : (s.alloc c).alloc = 0
  swap
  · have he : s.setClass c (drainFree (s.alloc c)) = s := by
      rw [drainFree, if_neg h0, Arena.setClass, Function.update_eq_self]
    exact ⟨A, F, by rw [he]; exact h, fun _ => rfl⟩
  have hA : A c = [] := (h.alloc_chain c).eq_nil_iff.mpr h0
  rw [drainFree, if_pos h0]
  refine ⟨Function.update A c (F c), Function.update F c [], ⟨h.owner, h.lo_pos, h.minPos_le, h.lo_le,
    h.live_len, fun c' => ?_, fun c' => ?_, fun a => ?_⟩, fun c' => ?_⟩
  · rcases eq_or_ne c' c with rfl | hne
    · simpa using h.free_chain c'
    · simpa [Function.update_of_ne hne] using h.alloc_chain c'
  · rcases eq_or_ne c' c with rfl | hne
    · simpa using chain_nil.mpr rfl
    · simpa [Function.update_of_ne hne] using h.free_chain c'
  · refine Eq.trans ?_ (h.tiles a)
    have h1 := cover_update A c (F c) a
    have h2 := cover_update F c [] a
    rw [hA] at h1
    simp only [cover_append, classBlocks_nil, cover_nil] at h1 h2 ⊢
    omega
  · rcases eq_or_ne c' c with rfl | hne
    · simp [hA]
    · rw [Function.update_of_ne hne, Function.update_of_ne hne]

/-- **Popping a block.** The head of the `alloc` list, cleared, goes to the caller. -/
theorem Inv.pop (h : Inv lo s live A F) {len off : ℕ} (hlen : len ≤ allocMaxLen) {l : List ℕ}
    (hA : A (classOf len) = off :: l) :
    Inv lo ((s.setMem (fill s.mem off 0 (roundLen len))).setClass (classOf len)
      { s.alloc (classOf len) with alloc := load64 s.mem off }) ((off, len) :: live)
      (Function.update A (classOf len) l) F := by
  have hin := h.list_inside (c := classOf len) (n := off) (Or.inl (by rw [hA]; simp))
  have ht : Tiles lo s.region.pos (liveBlocks ((off, len) :: live) ++
      listBlocks (Function.update A (classOf len) l) ++ listBlocks F) := by
    intro a
    refine Eq.trans ?_ (h.tiles a)
    have h1 := cover_update A (classOf len) l a
    rw [hA, classBlocks_cons, cover_cons] at h1
    rw [liveBlocks_cons]
    simp only [cover_append, roundLen, cover_cons (_, _) (liveBlocks live)] at h1 ⊢
    omega
  have hm : SameOff s.mem (fill s.mem off 0 (roundLen len)) off (roundLen len) :=
    sameOff_fill _ _ _ _
  have hb : (off, len) ∈ (off, len) :: live := List.mem_cons_self
  refine ⟨owner_setMem h.owner fun a ha => hm a (by unfold roundLen; omega), h.lo_pos, h.minPos_le,
    h.lo_le, ?_, fun c => ?_, fun c => ?_, ht⟩
  · intro b hb'
    rcases List.mem_cons.mp hb' with rfl | hb'
    · exact hlen
    · exact h.live_len b hb'
  · refine (chains_of_live ht hb hm c).1 ?_
    rcases eq_or_ne c (classOf len) with rfl | hne
    · have hc := h.alloc_chain (classOf len)
      rw [hA] at hc
      simpa using (chain_cons.mp hc).2.2
    · simpa [Function.update_of_ne hne] using h.alloc_chain c
  · refine (chains_of_live ht hb hm c).2 ?_
    rcases eq_or_ne c (classOf len) with rfl | hne
    · simpa using h.free_chain (classOf len)
    · simpa [Function.update_of_ne hne] using h.free_chain c

/-! ### Cutting a slab -/

/-- The offsets of the blocks of a slab. -/
def slabOffs (off n k : ℕ) : List ℕ := (slab off n k).map Prod.fst

theorem slabOffs_succ (off n k : ℕ) :
    slabOffs off n (k + 1) = slabOffs off n k ++ [off + k * n] := by
  unfold slabOffs
  rw [slab_eq_map, slab_eq_map, List.range_succ, List.map_append, List.map_append]
  rfl

theorem classBlocks_slabOffs (c : Fin allocClasses) (off k : ℕ) :
    classBlocks c (slabOffs off (classLen c) k) = slab off (classLen c) k := by
  unfold classBlocks slabOffs
  rw [slab_eq_map, List.map_map, List.map_map]
  rfl

theorem mem_slabOffs {off n k x : ℕ} : x ∈ slabOffs off n k ↔ ∃ i < k, x = off + i * n := by
  unfold slabOffs
  rw [slab_eq_map, List.map_map]
  simp only [List.mem_map, List.mem_range, Function.comp_apply]
  exact ⟨fun ⟨i, hi, h⟩ => ⟨i, hi, h.symm⟩, fun ⟨i, hi, h⟩ => ⟨i, hi, h.symm⟩⟩

/-- **The chaining loop** links the first `k` of `k + 1` blocks, each to the one behind it. -/
theorem linkNodes_spec {r : Region} {len : ℕ} (hlen : 8 ≤ len) (hr : r.pos < 2 ^ 64) :
    ∀ (k fuel node : ℕ) (m : Mem), k < fuel → r.minPos ≤ node → node + (k + 1) * len ≤ r.pos →
      ∃ m', linkNodes r len (node + (k + 1) * len) fuel node m = .ok (true, m') ∧
        SameOff m m' node (k * len) ∧
        Seg (load64 m') node (slabOffs node len k) (node + k * len)
  | 0, fuel + 1, node, m, _, _, _ => by
    refine ⟨m, ?_, sameOff_refl _ _ _, by simp [slabOffs, slab, Seg]⟩
    rw [linkNodes, if_neg (by omega)]
  | k + 1, fuel + 1, node, m, hk, hmin, hpos => by
    have hmul : (k + 1 + 1) * len = len + (k + 1) * len := by rw [Nat.succ_mul]; omega
    have hmul' : (k + 1) * len = len + k * len := by rw [Nat.succ_mul]; omega
    rw [hmul] at hpos ⊢
    have hptr : regionPtr r node 8 = some node := regionPtr_some hmin (by omega) hr
    obtain ⟨m', hrun, hoff, hseg⟩ := linkNodes_spec hlen hr k fuel (node + len)
      (store64 m node (node + len)) (by omega) (by omega) (by omega)
    refine ⟨m', ?_, ?_, ?_⟩
    · rw [linkNodes, if_pos (by omega), hptr]
      simp only
      rw [← Nat.add_assoc]
      exact hrun
    · exact ((sameOff_store _ _ _ _).mono le_rfl (by omega)).trans
        (hoff.mono (by omega) (by omega))
    · have hnext : load64 m' node = node + len := by
        rw [show load64 m' node = load64 (store64 m node (node + len)) node from
          load_of_sameOff hoff (Or.inl (by omega)), load64_store64 (by omega)]
      refine ⟨rfl, ?_⟩
      rw [hnext, hmul', ← Nat.add_assoc]
      exact hseg

/-- **A slab is cut**: behind its first block the others are linked into a list that ends. -/
theorem cutSlab_spec {r : Region} {n k p : ℕ} {m : Mem} (hn : 8 ≤ n) (hr : r.pos < 2 ^ 64)
    (hp : p ≠ 0) (hmin : r.minPos ≤ p) (hpos : p + (k + 1) * n ≤ r.pos) :
    ∃ m', linkNodes r n (p + (k + 1) * n) (k + 2) p m = .ok (true, m') ∧
      regionPtr r (p + k * n) 8 = some (p + k * n) ∧
      SameOff m (store64 m' (p + k * n) 0) p ((k + 1) * n) ∧
      Chain (load64 (store64 m' (p + k * n) 0)) p (slabOffs p n (k + 1)) := by
  have hsucc : (k + 1) * n = k * n + n := Nat.succ_mul k n
  obtain ⟨m', hrun, hoff, hseg⟩ := linkNodes_spec hn hr k (k + 2) p m (by omega) hmin hpos
  have hptr : regionPtr r (p + k * n) 8 = some (p + k * n) :=
    regionPtr_some (by omega) (by omega) hr
  refine ⟨m', hrun, hptr, (hoff.mono le_rfl (by omega)).trans
    ((sameOff_store _ _ _ _).mono (by omega) (by omega)), ?_⟩
  -- the store behind the links of the others ends the list
  have hnext : load64 (store64 m' (p + k * n) 0) (p + k * n) = 0 := load64_store64 (by decide)
  have hlinks : Seg (load64 (store64 m' (p + k * n) 0)) p (slabOffs p n k) (p + k * n) := by
    refine hseg.congr fun x hx => ?_
    obtain ⟨i, hi, rfl⟩ := mem_slabOffs.mp hx
    have hik : (i + 1) * n ≤ k * n := Nat.mul_le_mul_right n hi
    rw [Nat.succ_mul] at hik
    exact load_of_sameOff (sameOff_store _ _ _ _) (Or.inl (by omega))
  rw [slabOffs_succ]
  refine ⟨hlinks.append ⟨rfl, hnext⟩, fun h0 => ?_⟩
  rw [← slabOffs_succ, mem_slabOffs] at h0
  obtain ⟨i, -, h0⟩ := h0
  omega

/-- How many blocks a slab of blocks of length `len` has. -/
def slabNodes (len : ℕ) : ℕ := if len ≤ allocMidLen then 256 else 16

/-- The length of the slab a request is served from. -/
def slabLen (len : ℕ) : ℕ := roundLen len * slabNodes (roundLen len)

/-- How many blocks of a class are free. -/
def avail (A F : Fin allocClasses → List ℕ) (c : Fin allocClasses) : ℕ :=
  (A c).length + (F c).length

/-- How a block of `len` bytes is had: from the lists of its class, or with a slab that is cut where
the region ended. -/
structure Took (r : Region) (A F : Fin allocClasses → List ℕ) (len off : ℕ) (r' : Region)
    (A' F' : Fin allocClasses → List ℕ) : Prop where
  others : ∀ c, c ≠ classOf len → avail A' F' c = avail A F c
  served : (avail A' F' (classOf len) + 1 = avail A F (classOf len) ∧ r' = r) ∨
    (avail A F (classOf len) = 0 ∧ off = r.pos ∧
      avail A' F' (classOf len) + 1 = slabNodes (roundLen len) ∧ r'.pos = r.pos + slabLen len ∧
      r'.vmaLen = r.grownLen (slabLen len))

/-- The arena an allocation leaves: a cleared block, or nothing but the length of the file. -/
structure Allocated (lo : ℕ) (s : Arena) (live : List Block) (A F : Fin allocClasses → List ℕ)
    (len off : ℕ) (s' : Arena) (A' F' : Fin allocClasses → List ℕ) : Prop where
  inv : Inv lo s' ((off, len) :: live) A' F'
  took : Took s.region A F len off s'.region A' F'
  zero : ∀ a, Covers (off, roundLen len) a → s'.mem a = 0
  frame : ∀ b ∈ live, ∀ a, Covers (b.1, roundLen b.2) a → s'.mem a = s.mem a

/-- A failed allocation changes neither the lists nor the memory. -/
structure NotAllocated (lo : ℕ) (s : Arena) (live : List Block) (A F : Fin allocClasses → List ℕ)
    (s' : Arena) : Prop where
  inv : Inv lo s' live A F
  alloc : s'.alloc = s.alloc
  region : s'.region = s.region
  mem : s'.mem = s.mem

theorem slab_fits (c : Fin allocClasses) :
    classLen c * slabNodes (classLen c) < regionDefaultLen ∧ 2 < slabNodes (classLen c) := by
  revert c; decide

/-- A slab at the end of the region: its first block is handed out, the others are free. -/
theorem Inv.slab (h : Inv lo s live A F) {r' : Region} {f' : File} {m' : Mem} {len k : ℕ}
    (hlen : len ≤ allocMaxLen) (hA : A (classOf len) = []) (hown : r'.Owner f')
    (hmem : f'.mem = s.mem) (hmin : r'.minPos = s.region.minPos)
    (hpos : r'.pos = s.region.pos + (k + 2) * roundLen len)
    (hoff : SameOff s.mem m' (s.region.pos + roundLen len) ((k + 1) * roundLen len))
    (hchain : Chain (load64 m') (s.region.pos + roundLen len)
      (slabOffs (s.region.pos + roundLen len) (roundLen len) (k + 1))) :
    Inv lo ((Arena.setMem ⟨r', f', s.alloc⟩ m').setClass (classOf len)
        { s.alloc (classOf len) with alloc := s.region.pos + roundLen len })
      ((s.region.pos, len) :: live) (Function.update A (classOf len)
        (slabOffs (s.region.pos + roundLen len) (roundLen len) (k + 1))) F := by
  set c := classOf len with hc
  set n := roundLen len with hn
  have hnc : n = classLen c := rfl
  have hcomm : (k + 2) * n = n + (k + 1) * n := by rw [Nat.succ_mul (k + 1)]; omega
  have hspare : ∀ {l : List ℕ} {c' : Fin allocClasses} {a : ℕ},
      (∀ x ∈ l, x + classLen c' ≤ s.region.pos) → Chain (load64 s.mem) a l →
      Chain (load64 m') a l := by
    intro l c' a hl hch
    refine chain_of_spared (c := c') hch fun x hx b hb => hoff b fun hb' => ?_
    have h1 := hl x hx
    have h2 := hb.2
    simp only at h2
    omega
  refine ⟨?_, h.lo_pos, ?_, ?_, ?_, fun c' => ?_, fun c' => ?_, fun a => ?_⟩
  · exact owner_setMem (s := ⟨r', f', s.alloc⟩) hown fun a ha => by
      rw [hoff a (by simp only at ha; omega)]
      exact (congrFun hmem a).symm
  · show r'.minPos ≤ lo
    rw [hmin]
    exact h.minPos_le
  · show lo ≤ r'.pos
    have := h.lo_le
    omega
  · intro b hb
    rcases List.mem_cons.mp hb with rfl | hb
    · exact hlen
    · exact h.live_len b hb
  · rcases eq_or_ne c' c with rfl | hne
    · simpa using hchain
    · simp only [setClass_alloc, setMem_alloc, setClass_mem, setMem_mem,
        Function.update_of_ne hne]
      exact hspare (fun x hx => (h.list_inside (Or.inl hx)).2) (h.alloc_chain c')
  · have hch := hspare (fun x hx => (h.list_inside (Or.inr hx)).2) (h.free_chain c')
    rcases eq_or_ne c' c with rfl | hne
    · simpa using hch
    · simpa [Function.update_of_ne hne] using hch
  · show _ = if lo ≤ a ∧ a < r'.pos then 1 else 0
    suffices h0 : Tiles lo r'.pos (liveBlocks ((s.region.pos, len) :: live) ++
        listBlocks (Function.update A c (slabOffs (s.region.pos + n) n (k + 1))) ++ listBlocks F) from
      h0 a
    refine h.tiles.extend (fun a => ?_) h.lo_le (by omega)
    have h1 := cover_update A c (slabOffs (s.region.pos + n) n (k + 1)) a
    have h2 := cover_slab n (k + 2) s.region.pos a
    rw [Lib.Tiling.slab, cover_cons] at h2
    rw [hA, hnc, classBlocks_slabOffs, ← hnc, classBlocks_nil, cover_nil] at h1
    rw [liveBlocks_cons]
    simp only [cover_append, cover_cons (_, _) (liveBlocks live)]
    rw [hpos, ← hn]
    omega

/-- **What `alloc_fill_class` does**, the lists of the class being empty. -/
theorem allocFillClass_spec (h : Inv lo s live A F) (env : GrowEnv) {len : ℕ}
    (hlen : len ≤ allocMaxLen) (hA : A (classOf len) = []) (hF : F (classOf len) = []) :
    ∃ off s', allocFillClass env s (roundLen len) (classOf len) = .ok (off, s') ∧
      ((¬ s.region.Room env (slabLen len) ∧ off = 0 ∧ NotAllocated lo s live A F s') ∨
        (s.region.Room env (slabLen len) ∧ off ≠ 0 ∧
          ∃ A', Allocated lo s live A F len off s' A' F)) := by
  set c := classOf len with hc
  set n := roundLen len with hn
  have hn8 : 8 ≤ n := classLen_ge c
  obtain ⟨hfit, hnodes⟩ := slab_fits c
  rw [← show n = classLen c from rfl] at hfit hnodes
  obtain ⟨start, r', f', hgrow, hown, hmem, hmin, hres⟩ := regionGrow_spec h.owner env hfit
  unfold allocFillClass
  dsimp only
  rw [show n * (if n ≤ allocMidLen then 256 else 16) = n * slabNodes n from rfl, hgrow, ok_bind]
  rcases hres with ⟨hroom, rfl, rfl⟩ | ⟨hroom, rfl, hpos, hvma⟩
  · refine ⟨0, _, if_pos rfl, Or.inl ⟨hroom, rfl, ⟨hown, h.lo_pos, h.minPos_le, h.lo_le, h.live_len,
      fun c => ?_, fun c => ?_, h.tiles⟩, rfl, rfl, hmem⟩⟩
    · simpa only [Arena.mem, hmem] using h.alloc_chain c
    · simpa only [Arena.mem, hmem] using h.free_chain c
  have hp := h.owner.pos_pos
  have hlt := hown.pos_lt
  have hminle := h.owner.minPos_le
  have hdiv : n * slabNodes n / n = slabNodes n := Nat.mul_div_cancel_left _ (by omega)
  obtain ⟨k, hk⟩ : ∃ k, slabNodes n = k + 2 := ⟨slabNodes n - 2, by omega⟩
  have hsucc : (k + 1) * n = k * n + n := Nat.succ_mul k n
  have hslab : n * slabNodes n = (k + 2) * n := by rw [hk, Nat.mul_comm]
  have hcomm : (k + 2) * n = n + (k + 1) * n := by rw [Nat.succ_mul (k + 1)]; omega
  obtain ⟨m, hrun, hptr, hoff, hchain⟩ := @cutSlab_spec r' n k (s.region.pos + n) f'.mem hn8
    (by omega) (by omega) (by omega) (by omega)
  rw [hmem] at hoff
  have hstop : s.region.pos + slabNodes n * n = s.region.pos + n + (k + 1) * n := by
    rw [hk, hcomm, Nat.add_assoc]
  have hlast : s.region.pos + n + (k + 1) * n - n = s.region.pos + n + k * n := by omega
  have halloc : (s.alloc c).alloc = 0 := (h.alloc_chain c).eq_nil_iff.mp hA
  set m' := store64 m (s.region.pos + n + k * n) 0 with hm'
  refine ⟨s.region.pos, (Arena.setMem ⟨r', f', s.alloc⟩ m').setClass c
    { s.alloc c with alloc := s.region.pos + n }, ?_, Or.inr ⟨hroom, by omega,
    Function.update A c (slabOffs (s.region.pos + n) n (k + 1)),
    h.slab hlen hA hown hmem hmin (by rw [hpos, hslab]) hoff hchain,
    ⟨fun c' hc' => ?_, Or.inr ⟨?_, rfl, ?_, hpos, hvma⟩⟩, fun a ha => ?_, fun b hb a ha => ?_⟩⟩
  · simp only [Arena.mem]
    rw [if_neg (by omega), hdiv, opticsAssert_pos hnodes, ok_bind, hstop, hk, hrun, ok_bind]
    simp only [Bool.not_true, Bool.false_eq_true, if_false]
    rw [hlast, hptr, halloc]
  · unfold avail
    rw [Function.update_of_ne hc']
  · unfold avail
    rw [hA, hF]
    rfl
  · unfold avail
    rw [Function.update_self, hF, slabOffs, List.length_map, slab_eq_map, List.length_map,
      List.length_range, List.length_nil, hk]
  · rw [show Arena.mem _ = m' from rfl, hoff a (by have := ha.2; simp only at this; omega)]
    exact h.owner.zero a ha.1
  · rw [show Arena.mem _ = m' from rfl]
    refine hoff a fun ha' => ?_
    have h1 := (h.live_inside hb).2
    have h2 := ha.2
    simp only at h2
    omega

/-- No block of the class is free and no slab can be had. -/
def Exhausted (env : GrowEnv) (s : Arena) (len : ℕ) : Prop :=
  s.alloc (classOf len) = ⟨0, 0⟩ ∧ ¬ s.region.Room env (slabLen len)

instance (env : GrowEnv) (s : Arena) (len : ℕ) : Decidable (Exhausted env s len) := by
  unfold Exhausted; infer_instance

/-- A class is exhausted when it has no free block and cannot grow. -/
theorem Inv.exhausted_iff (h : Inv lo s live A F) (env : GrowEnv) (len : ℕ) :
    Exhausted env s len ↔ avail A F (classOf len) = 0 ∧ ¬ s.region.Room env (slabLen len) := by
  have hA := (h.alloc_chain (classOf len)).eq_nil_iff
  have hF := (h.free_chain (classOf len)).eq_nil_iff
  have hk : s.alloc (classOf len) = ⟨0, 0⟩ ↔ avail A F (classOf len) = 0 := by
    unfold avail
    rw [Nat.add_eq_zero_iff, List.length_eq_zero_iff, List.length_eq_zero_iff, hA, hF]
    rcases s.alloc (classOf len) with ⟨a, f⟩
    exact AllocClass.mk.injEq a f 0 0 ▸ Iff.rfl
  unfold Exhausted
  rw [hk]

theorem drainFree_alloc_eq_zero {k : AllocClass} : (drainFree k).alloc = 0 ↔ k = ⟨0, 0⟩ := by
  unfold drainFree
  cases k with
  | mk a f =>
    by_cases h : a = 0
    · simp [h]
    · simp [h]

/-- **What `alloc_alloc` does.** It returns a cleared block that nobody holds, or 0 with nothing
changed when the class is exhausted. -/
theorem allocAlloc_spec (h : Inv lo s live A F) (env : GrowEnv) {len : ℕ}
    (hlen : len ≤ allocMaxLen) :
    ∃ off s', allocAlloc env s len = .ok (off, s') ∧
      ((Exhausted env s len ∧ off = 0 ∧ NotAllocated lo s live A F s') ∨
        (¬ Exhausted env s len ∧ off ≠ 0 ∧ ∃ A' F', Allocated lo s live A F len off s' A' F')) := by
  obtain ⟨A1, F1, h1, hAF⟩ := h.drain (classOf len)
  unfold allocAlloc
  dsimp only
  rw [opticsAssert_pos hlen, ok_bind, allocClass_eq hlen, ok_bind]
  dsimp only
  by_cases h0 : (drainFree (s.alloc (classOf len))).alloc = 0
  · -- both lists are empty: the class takes a slab
    have hk := drainFree_alloc_eq_zero.mp h0
    have hs : s.setClass (classOf len) (drainFree (s.alloc (classOf len))) = s := by
      rw [hk, show drainFree ⟨0, 0⟩ = ⟨0, 0⟩ from rfl, ← hk, Arena.setClass, Function.update_eq_self]
    have hA : A (classOf len) = [] :=
      (h.alloc_chain (classOf len)).eq_nil_iff.mpr (by rw [hk])
    have hF : F (classOf len) = [] := (h.free_chain (classOf len)).eq_nil_iff.mpr (by rw [hk])
    obtain ⟨off, s', hrun, hres⟩ := allocFillClass_spec h env hlen hA hF
    refine ⟨off, s', ?_, ?_⟩
    · rw [hs, if_pos (by rw [hk])]; exact hrun
    · rcases hres with ⟨hr, h2, h3⟩ | ⟨hr, h2, A', h3⟩
      · exact Or.inl ⟨⟨hk, hr⟩, h2, h3⟩
      · exact Or.inr ⟨fun he => he.2 hr, h2, A', F, h3⟩
  · set s1 := s.setClass (classOf len) (drainFree (s.alloc (classOf len))) with hs1
    have hhead : (s1.alloc (classOf len)).alloc = (drainFree (s.alloc (classOf len))).alloc := by
      simp [hs1]
    obtain ⟨l, hl, hch⟩ := (h1.alloc_chain (classOf len)).uncons (by rw [hhead]; exact h0)
    set off := (s1.alloc (classOf len)).alloc with hoff
    have hin := h1.list_inside (c := classOf len) (n := off) (Or.inl (by rw [hl]; simp))
    have hmin := h1.minPos_le
    have hpos := h1.owner.pos_lt
    have hptr : regionPtr s1.region off (roundLen len) = some off :=
      regionPtr_some (by omega) hin.2 (by omega)
    have havail : ∀ c, avail A1 F1 c = avail A F c := fun c => by
      unfold avail
      rw [← List.length_append, hAF, List.length_append]
    have hself : off ≠ load64 s1.mem off := by
      intro he
      have hnd := (h1.alloc_chain (classOf len)).nodup
      rw [hl] at hnd
      obtain ⟨l', hl', -⟩ := hch.uncons (by rw [← he, hhead]; exact h0)
      rw [hl', ← he] at hnd
      simp at hnd
    refine ⟨off, _, ?_, Or.inr ⟨fun he => h0 (drainFree_alloc_eq_zero.mpr he.1), ?_, _, F1,
      h1.pop hlen hl, ⟨fun c hc => ?_, Or.inl ⟨?_, rfl⟩⟩, fun a ha => fill_apply ha.1 ha.2,
      fun b hb a ha => ?_⟩⟩
    · rw [if_neg (by rw [hhead]; exact h0), hptr]
      dsimp only
      rw [opticsAssert_pos hself, ok_bind]
    · rw [hhead]; exact h0
    · rw [← havail c]
      unfold avail
      rw [Function.update_of_ne hc]
    · rw [← havail (classOf len)]
      unfold avail
      rw [Function.update_self, hl, List.length_cons]
      omega
    · refine sameOff_fill _ _ _ _ a fun ha' => ?_
      exact (h1.pop hlen hl).live_disjoint (List.Perm.refl _) hb a ha' ha

end Inv

end Optics.AllocatorInv
