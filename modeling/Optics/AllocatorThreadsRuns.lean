import Optics.AllocatorThreadsInv
import Optics.Lib.Runs

/-! # Runs of the allocator's threads

Every step of every thread keeps the invariant (`Inv.step`), one lemma for each step that moves a
block or changes a list, so that it holds of every interleaving. The steps on which an assertion
fails or `region_ptr` is null are never taken. A call of `alloc_alloc` that no other thread disturbs
ends (`Inv.alloc_goes`). -/

namespace Optics.AllocatorThreads

open Optics.Base Optics.Lib.Bytes Optics.Lib.LinkedList Optics.Lib.Tiling Optics.Lib.Runs
open Optics.Lib.SpinLock
open Optics.Regions Optics.Allocator Optics.AllocatorInv Optics.AllocatorRuns

section Steps
variable {ι : Type} [Fintype ι] {s : State ι}

/-! ### What the invariant says -/

/-- The blocks are where they should be: those of the callers, those only one thread knows, those
freed out of reach and those on the lists cut up the memory that was handed out. -/
structure Safe (s : State ι) : Prop where
  partition : ∃ (L : List Block) (A F : Fin allocClasses → List ℕ),
    (L : Multiset Block) = s.live + held s.threads + s.leaked ∧ Partition ⟨s.arena, L⟩ A F
  guarded : Guarded s.lock fun i => (s.threads i).holds
  running : ∀ i, s.threads i ≠ .aborted

theorem Inv.safe (h : Inv s) : Safe s := by
  obtain ⟨L, A, F, hp⟩ := h.blocks
  refine ⟨⟨L, A, F, hp.perm, partition_of_inv (s := ⟨s.arena, L⟩) hp.inv⟩,
    h.guarded, fun i hi => ?_⟩
  have hk := h.knows i
  rw [hi] at hk
  exact hk

theorem Start.inv (h : Start s) : Inv s := by
  obtain ⟨hs, hl, ht, hk⟩ := h
  have hinv := inv_start hs
  have hheld : held s.threads = 0 := Finset.sum_eq_zero fun i _ => by rw [ht i]; rfl
  refine ⟨?_, ⟨s.live, _, _, ?_, hinv⟩, fun i => ?_⟩
  · rw [hl, show (fun i => (s.threads i).holds) = fun _ => false from funext fun i => by
      rw [ht i]; rfl]
    exact guarded_nobody
  · rw [hheld, hk, Multiset.coe_nil, add_zero, add_zero]
  · rw [ht i]
    exact trivial

theorem link_inside {start len k : ℕ} (hk : k ≤ links (roundLen len)) :
    (start + roundLen len + k * roundLen len, roundLen len) ∈ restOf start len :=
  mem_slab (Nat.lt_succ_of_le hk)

theorem Inv.link_block (h : Inv s) {i : ι} {len start node : ℕ}
    (hi : s.threads i = .link len start node)
    (hlt : node + roundLen len < stopOf start (roundLen len)) :
    (node, roundLen len) ∈ (s.threads i).blocks := by
  have hk := h.knows i
  rw [hi] at hk ⊢
  obtain ⟨-, -, k, hkle, rfl, -⟩ := hk
  rw [Thread.blocks, blocks_slab]
  exact List.mem_cons_of_mem _ (link_inside hkle)

theorem last_block (len start : ℕ) :
    (lastOf start len, roundLen len) ∈ (Thread.last len start).blocks := by
  rw [Thread.blocks, blocks_slab]
  exact List.mem_cons_of_mem _ (link_inside le_rfl)

variable [DecidableEq ι] {L : List Block} {A F : Fin allocClasses → List ℕ}

/-! ### Taking a block off a list -/

theorem Inv.step_exchange (h : Inv s) {i : ι} {len : ℕ} (hi : s.threads i = .exchange len) :
    Inv { s.goto i (if (s.class len).free = 0 then .empty len else .pop len) with
      arena := s.arena.setClass (classOf len) ⟨(s.class len).free, 0⟩ } := by
  obtain ⟨L, A, F, hp⟩ := h.blocks
  have hk := h.knows i
  rw [hi] at hk
  obtain ⟨A', F', hd, -⟩ := hp.inv.drain (classOf len)
  rw [drainFree, if_pos hk.2] at hd
  refine h.moves (i := i) (t := if (s.class len).free = 0 then .empty len else .pop len)
    ⟨rfl, Or.inl ⟨rfl, ?_⟩, ?_, fun _ _ _ _ _ _ => rfl, Or.inl (by rw [hi]; rfl)⟩
    ⟨L, A', F', hp.of_update rfl ?_ hd⟩
  · rw [hi]
    split_ifs <;> rfl
  · split_ifs with h0
    · exact hk.1
    · exact ⟨hk.1, by simpa using h0⟩
  · rw [hi]
    split_ifs <;> rfl

theorem Inv.step_pop (h : Inv s) {i : ι} {len p : ℕ} (hi : s.threads i = .pop len)
    (hp : regionPtr s.arena.region (s.class len).alloc (roundLen len) = some p) :
    Inv ((s.setHead len (load64 s.arena.mem p)).goto i (.clear len p)) := by
  have hk := h.knows i
  rw [hi] at hk
  have hptr := (h.head_ptr hk.2).1
  rw [hp, Option.some.injEq] at hptr
  obtain ⟨L, A, F, hparts⟩ := h.blocks
  obtain ⟨l, hl, -⟩ := (hparts.inv.alloc_chain (classOf len)).uncons hk.2
  have ht := hparts.inv.take hk.1 hl
  rw [show (s.arena.alloc (classOf len)).alloc = p from hptr.symm] at ht
  refine h.moves (i := i) (t := .clear len p) ⟨rfl, Or.inl ⟨rfl, by rw [hi]; rfl⟩, hk.1,
    fun _ _ _ _ _ _ => rfl, Or.inl (by rw [hi]; rfl)⟩
    ⟨_, _, F, hparts.of_update (t := .clear len p) rfl ?_ ht⟩
  rw [hi]
  simp only [Thread.blocks, State.goto, State.setHead, ← Multiset.cons_coe,
    ← Multiset.singleton_add, Multiset.coe_nil]
  abel

/-! ### A slab -/

theorem Inv.step_growNull (h : Inv s) {i : ι} {env : GrowEnv} {len : ℕ} {r : Region} {f : File}
    (hi : s.threads i = .fill len)
    (hg : regionGrow env s.arena.region s.arena.file (slabOf (roundLen len)) = .ok (0, r, f)) :
    Inv { s.goto i .idle with arena := { s.arena with region := r, file := f } } := by
  obtain ⟨L, A, F, hp⟩ := h.blocks
  obtain ⟨ho, hm, -, ⟨-, -, hr⟩ | ⟨-, h0, -⟩⟩ := h.growth hg
  · exact h.moves (i := i) (t := .idle) ⟨rfl, Or.inl ⟨rfl, by rw [hi]; rfl⟩, trivial,
      fun _ _ _ _ x _ => congrFun hm x, Or.inr fun _ => rfl⟩
      ⟨L, A, F, hp.of_update rfl (by rw [hi]; rfl) (hp.regrow ho hr hm)⟩
  · exact absurd rfl h0

theorem Inv.step_grow (h : Inv s) {i : ι} {env : GrowEnv} {len start : ℕ} {r : Region} {f : File}
    (hi : s.threads i = .fill len)
    (hg : regionGrow env s.arena.region s.arena.file (slabOf (roundLen len)) = .ok (start, r, f))
    (h0 : start ≠ 0) :
    Inv { s.goto i (.link len start (start + roundLen len)) with
      arena := { s.arena with region := r, file := f } } := by
  obtain ⟨L, A, F, hp⟩ := h.blocks
  have hk := h.knows i
  rw [hi] at hk
  obtain ⟨ho, hm, hmin, ⟨-, h1, -⟩ | ⟨rfl, -, hpos⟩⟩ := h.growth hg
  · exact absurd h1 h0
  have hgrow := hp.inv.grow hk ho hm hmin hpos
  refine h.moves (i := i) (t := .link len _ _) ⟨rfl, Or.inl ⟨rfl, by rw [hi]; rfl⟩, ⟨hk,
    fun x hx => ?_, 0, Nat.zero_le _, by simp, by simp [Linked, slabOffs, slab, Seg]⟩,
    fun _ _ _ _ x _ => congrFun hm x, Or.inr fun _ => rfl⟩
    ⟨_, A, F, hp.of_update rfl ?_ hgrow⟩
  · -- what lies behind the position of a region is zero
    show f.mem x = 0
    rw [hm]
    exact hp.inv.owner.zero x hx.1
  · rw [hi, Thread.blocks, blocks_slab, restOf, ← Multiset.coe_add]
    simp only [Thread.blocks, State.goto, Multiset.coe_nil]
    abel

theorem Linked.snoc {m : Mem} {start len k z : ℕ} (hz : z < 2 ^ 64)
    (h : Linked m start len k (start + roundLen len + k * roundLen len)) :
    Linked (store64 m (start + roundLen len + k * roundLen len) z) start len (k + 1) z := by
  have hge := classLen_ge (classOf len)
  unfold Linked
  rw [slabOffs_succ]
  refine Seg.append (Linked.congr h fun b hb x hx => ?_) ⟨rfl, load64_store64 hz⟩
  rw [slab_eq_map, List.mem_map] at hb
  obtain ⟨j, hj, rfl⟩ := hb
  have hmul := Nat.mul_le_mul_right (roundLen len) (List.mem_range.mp hj)
  rw [Nat.succ_mul] at hmul
  refine sameOff_store _ _ _ _ x fun hx' => ?_
  have h1 := hx.2
  dsimp only at h1
  omega

theorem sameOff_link (m : Mem) (off len z : ℕ) :
    SameOff m (store64 m off z) off (roundLen (roundLen len)) := by
  have := classLen_ge (classOf len)
  refine (sameOff_store m 8 off z).mono le_rfl ?_
  rw [roundLen_roundLen]
  unfold roundLen
  omega

theorem Zero.link {m : Mem} {start len k z : ℕ} (h : Zero m start len) :
    Zero (store64 m (start + roundLen len + k * roundLen len) z) start len := by
  refine h.congr fun x hx => sameOff_store _ _ _ _ x fun hx' => ?_
  have h1 := hx.2
  dsimp only at h1
  omega

theorem Inv.step_link (h : Inv s) {i : ι} {len start node p : ℕ}
    (hi : s.threads i = .link len start node)
    (hlt : node + roundLen len < stopOf start (roundLen len))
    (hp : regionPtr s.arena.region node 8 = some p) :
    Inv ((s.setMem (store64 s.arena.mem p (node + roundLen len))).goto i
      (.link len start (node + roundLen len))) := by
  have hk := h.knows i
  rw [hi] at hk
  obtain ⟨hlen, hz, k, -, rfl, hl⟩ := hk
  obtain ⟨rfl, -, -⟩ := regionPtr_eq_some hp
  have hmem := h.link_block hi hlt
  rw [stopOf_eq, Nat.add_lt_add_iff_right, Nat.add_lt_add_iff_left] at hlt
  have hklt : k < links (roundLen len) := Nat.lt_of_mul_lt_mul_right hlt
  obtain ⟨L, A, F, hparts⟩ := h.blocks
  have hin := hparts.inv.live_inside (hparts.held_mem hmem)
  have hpos := hparts.inv.owner.pos_lt
  rw [roundLen_roundLen] at hin
  dsimp only at hin
  refine h.work hmem (sameOff_link _ _ len _) ⟨hlen, hz.link, k + 1, hklt, ?_,
    hl.snoc (by omega)⟩ (by rw [hi]; rfl) (by rw [hi]; rfl)
  rw [Nat.succ_mul]
  omega

theorem link_done {start len k : ℕ} (hk : k ≤ links (roundLen len))
    (h : ¬ start + roundLen len + k * roundLen len + roundLen len < stopOf start (roundLen len)) :
    k = links (roundLen len) := by
  rw [stopOf_eq, Nat.add_lt_add_iff_right, Nat.add_lt_add_iff_left] at h
  by_contra hne
  have hpos : 0 < roundLen len := classLen_pos _
  exact h (Nat.mul_lt_mul_of_pos_right (by omega) hpos)

theorem Inv.step_linkDone (h : Inv s) {i : ι} {len start node : ℕ}
    (hi : s.threads i = .link len start node)
    (hle : ¬ node + roundLen len < stopOf start (roundLen len)) :
    Inv (s.goto i (.linked len start)) := by
  have hk := h.knows i
  rw [hi] at hk
  obtain ⟨hlen, hz, k, hkle, rfl, hl⟩ := hk
  rw [link_done hkle hle] at hl
  exact h.stay ⟨hlen, hz, hl⟩ (by rw [hi]; rfl) (by rw [hi]; rfl)

theorem stop_sub (start len : ℕ) :
    stopOf start (roundLen len) - roundLen len = lastOf start len := by
  rw [stopOf_eq, Nat.add_sub_cancel]
  rfl

theorem Inv.step_last (h : Inv s) {i : ι} {len start : ℕ} (hi : s.threads i = .last len start) :
    Inv ((s.setMem (store64 s.arena.mem (stopOf start (roundLen len) - roundLen len)
      (s.class len).alloc)).goto i (.splice len start)) := by
  have hk := h.knows i
  rw [hi] at hk
  obtain ⟨L, A, F, hparts⟩ := h.blocks
  have hlt := (hparts.inv.head_lt (classOf len)).1
  rw [stop_sub]
  exact h.work (b := (lastOf start len, roundLen len)) (by rw [hi]; exact last_block len start)
     (sameOff_link _ _ len _) ⟨hk.1, hk.2.1.link, hk.2.2.snoc
    (by unfold State.class; omega)⟩ (by rw [hi]; rfl) (by rw [hi]; rfl)

theorem Inv.step_splice (h : Inv s) {i : ι} {len start : ℕ} (hi : s.threads i = .splice len start) :
    Inv ((s.setHead len (start + roundLen len)).goto i (.spliced len start)) := by
  have hk := h.knows i
  rw [hi] at hk
  obtain ⟨L, A, F, hp⟩ := h.blocks
  have hle := (blocks_le_held s.threads i).trans ((Multiset.le_add_left _ _).trans
    ((Multiset.le_add_right _ _).trans hp.perm.ge))
  rw [hi, Thread.blocks, blocks_slab] at hle
  obtain ⟨r, hr⟩ := Multiset.le_iff_exists_add.mp hle
  have hperm : L.Perm (restOf start len ++ ((start, len) :: r.toList)) := by
    rw [← Multiset.coe_eq_coe, hr, ← Multiset.coe_add, ← Multiset.cons_coe, ← Multiset.cons_coe,
      Multiset.coe_toList, ← Multiset.singleton_add, ← Multiset.singleton_add]
    abel
  have hinv := (hp.inv.perm hperm).splice
    (by have := classLen_pos (classOf len); unfold roundLen; omega) hk.2.2
  refine h.moves (i := i) (t := .spliced len start) ⟨rfl, Or.inl ⟨rfl, by rw [hi]; rfl⟩,
    ⟨hk.1, hk.2.1⟩, fun _ _ _ _ _ _ => rfl, Or.inl (by rw [hi]; rfl)⟩
    ⟨_, _, F, hp.of_update rfl ?_ hinv⟩
  rw [hi, hr, show (Thread.splice len start).blocks = _ from blocks_slab start len]
  simp only [Thread.blocks, State.goto, State.setHead, ← Multiset.cons_coe,
    ← Multiset.singleton_add, Multiset.coe_nil, Multiset.coe_toList]
  abel

/-! ### Freeing -/

theorem erase_add {l : List Block} {b : Block} (hb : b ∈ l) :
    ((l.erase b : List Block) + {b} : Multiset Block) = l := by
  rw [add_comm, Multiset.singleton_add, Multiset.cons_coe]
  exact Multiset.coe_eq_coe.mpr (List.perm_cons_erase hb).symm

theorem Inv.step_free (h : Inv s) {i : ι} {off len : ℕ} (hi : s.threads i = .idle)
    (hb : (off, len) ∈ s.live) :
    Inv { s.goto i (.free len off) with live := s.live.erase (off, len) } := by
  obtain ⟨L, A, F, hp⟩ := h.blocks
  refine h.moves (i := i) (t := .free len off) ⟨rfl, Or.inl ⟨rfl, by rw [hi]; rfl⟩,
    h.live_len hb, fun _ _ _ _ _ _ => rfl, Or.inr fun _ => rfl⟩
    ⟨L, A, F, hp.of_update rfl ?_ hp.inv⟩
  rw [hi, ← erase_add hb]
  simp only [Thread.blocks, State.goto, Multiset.coe_nil, Multiset.coe_singleton]
  abel

theorem Inv.step_freeNull (h : Inv s) {i : ι} {b : Block} (hi : s.threads i = .idle)
    (hb : b ∈ s.live) :
    Inv { s with live := s.live.erase b, leaked := b :: s.leaked } := by
  obtain ⟨L, A, F, hp⟩ := h.blocks
  refine h.moves (i := i) (t := .idle) ⟨by rw [← hi, Function.update_eq_self],
    Or.inl ⟨rfl, by rw [hi]⟩, trivial, fun _ _ _ _ _ _ => rfl, Or.inr fun _ => rfl⟩
    ⟨L, A, F, hp.of_update (i := i) (t := .idle) (by rw [← hi, Function.update_eq_self]) ?_ hp.inv⟩
  rw [hi, ← erase_add hb, ← Multiset.cons_coe, ← Multiset.singleton_add]
  abel

theorem sameOff_pushed (m : Mem) (off len old : ℕ) :
    SameOff m (store64 m off old) off (roundLen len) := by
  have hge := classLen_ge (classOf len)
  exact (sameOff_store m 8 off old).mono le_rfl
    (show off + 8 ≤ off + classLen (classOf len) by omega)

theorem Inv.step_store (h : Inv s) {i : ι} {len off old : ℕ}
    (hi : s.threads i = .loaded len off old) :
    Inv ((s.setMem (store64 s.arena.mem off old)).goto i (.push len off old)) := by
  have hk := h.knows i
  rw [hi] at hk
  exact h.work (b := (off, len)) (by rw [hi]; exact List.mem_cons_self) (sameOff_pushed _ _ _ _)
    ⟨hk.1, load64_store64 hk.2⟩ (by rw [hi]; rfl) (by rw [hi]; rfl)

theorem Inv.step_push (h : Inv s) {i : ι} {len off old : ℕ} (hi : s.threads i = .push len off old)
    (hold : (s.class len).free = old) :
    Inv { s.goto i .idle with
      arena := s.arena.setClass (classOf len) { s.class len with free := off } } := by
  have hk := h.knows i
  rw [hi] at hk
  obtain ⟨L, A, F, hp⟩ := h.blocks
  have hmem : (off, len) ∈ L := hp.held_mem (i := i) (by rw [hi]; exact List.mem_cons_self)
  have hinv := (hp.inv.perm (List.perm_cons_erase hmem)).push (hk.2.trans hold.symm)
  refine h.moves (i := i) (t := .idle) ⟨rfl, Or.inl ⟨rfl, by rw [hi]; rfl⟩, trivial,
    fun _ _ _ _ _ _ => rfl, Or.inr fun c => ?_⟩ ⟨_, A, _, hp.of_update rfl ?_ hinv⟩
  · rcases eq_or_ne c (classOf len) with rfl | hne
    · simp [State.class]
    · simp [Function.update_of_ne hne]
  · rw [hi, ← erase_add hmem]
    simp only [Thread.blocks, State.goto, Multiset.coe_nil, Multiset.coe_singleton]
    abel

theorem Inv.step_write (h : Inv s) {i : ι} {b : Block} {m : Mem} (hi : s.threads i = .idle)
    (hb : b ∈ s.live) (hm : SameOff s.arena.mem m b.1 (roundLen b.2)) : Inv (s.setMem m) := by
  obtain ⟨L, A, F, hp⟩ := h.blocks
  have hth : (s.setMem m).threads = Function.update s.threads i .idle := by
    rw [← hi, Function.update_eq_self]; rfl
  refine h.moves (i := i) (t := .idle) ⟨hth, Or.inl ⟨rfl, by rw [hi]⟩, trivial,
    fun j _ b' hb' x hx => hm x fun hx' => hp.apart_live hb hb' x hx' hx, Or.inr fun _ => rfl⟩
    ⟨L, A, F, hp.of_update hth (by rw [hi]; rfl) (hp.inv.write (hp.mem.mpr (Or.inl hb)) hm)⟩

/-! ### Runs -/

theorem Inv.link_ptr (h : Inv s) {i : ι} {len start node : ℕ}
    (hi : s.threads i = .link len start node) :
    (node + roundLen len < stopOf start (roundLen len) →
        regionPtr s.arena.region node 8 = some node) ∧
      (¬ node + roundLen len < stopOf start (roundLen len) → regionPtr s.arena.region
        (stopOf start (roundLen len) - roundLen len) 8 = some (lastOf start len)) := by
  have hk := h.knows i
  rw [hi] at hk
  obtain ⟨-, -, k, hkle, rfl, -⟩ := hk
  obtain ⟨L, A, F, hp⟩ := h.blocks
  have hge : 8 ≤ roundLen (roundLen len) := classLen_ge _
  have hblock : ∀ {j}, j ≤ links (roundLen len) →
      (start + roundLen len + j * roundLen len, roundLen len) ∈ L := fun hj =>
    hp.held_mem (i := i) (by
      rw [hi, Thread.blocks, blocks_slab]
      exact List.mem_cons_of_mem _ (link_inside hj))
  rw [stop_sub]
  exact ⟨fun _ => hp.inv.ptr (hblock hkle) hge, fun _ => hp.inv.ptr (hblock le_rfl) hge⟩

theorem Inv.link_not_null (h : Inv s) {i : ι} {len start node : ℕ}
    (hi : s.threads i = .link len start node) :
    ¬ ((node + roundLen len < stopOf start (roundLen len) ∧
        regionPtr s.arena.region node 8 = none) ∨
      (¬ node + roundLen len < stopOf start (roundLen len) ∧
        regionPtr s.arena.region (stopOf start (roundLen len) - roundLen len) 8 = none)) := by
  rintro (⟨hlt, hp⟩ | ⟨hle, hp⟩)
  · rw [(h.link_ptr hi).1 hlt] at hp
    cases hp
  · rw [(h.link_ptr hi).2 hle] at hp
    cases hp

/-- **Every step of every thread keeps the invariant.** -/
theorem Inv.step (h : Inv s) {s' : State ι} {i : ι} {ev : Event} (hs : Step i s ev s') : Inv s' := by
  have hk := h.knows i
  cases hs with
  | alloc hi hlen => exact h.stay hlen (by rw [hi]; rfl) (by rw [hi]; rfl)
  | spin => exact h
  | lock hi hfree =>
    rw [hi] at hk
    exact h.quiet (t := .locked _) hk (by rw [hi]; rfl) (Or.inr (Or.inl ⟨hfree, rfl, rfl⟩))
  | tooLong hi hn => exact absurd (h.locked_len hi hn) id
  | head hi hlen =>
    split_ifs with h0
    · exact h.stay ⟨hlen, h0⟩ (by rw [hi]; rfl) (by rw [hi]; rfl)
    · exact h.stay ⟨hlen, h0⟩ (by rw [hi]; rfl) (by rw [hi]; rfl)
  | exchange hi => exact h.step_exchange hi
  | pop hi hp => exact h.step_pop hi hp
  | popNull hi hp =>
    rw [hi] at hk
    rw [(h.head_ptr hk.2).1] at hp
    cases hp
  | popSelf hi hp he =>
    rw [hi] at hk
    rw [(h.head_ptr hk.2).1] at hp
    cases hp
    exact absurd he (h.head_ptr hk.2).2
  | clear hi =>
    rw [hi] at hk
    exact h.work (b := (_, _)) (by rw [hi]; exact List.mem_cons_self) (sameOff_fill _ _ _ _)
      ⟨hk, fun x hx => fill_apply hx.1 hx.2⟩ (by rw [hi]; rfl) (by rw [hi]; rfl)
  | ret hi => exact h.give (by rw [hi]; rfl) (by rw [hi]; rfl)
  | retFailed hi =>
    rw [hi] at hk
    exact absurd hk id
  | unlock hi =>
    rw [hi] at hk
    exact h.quiet (t := .fill _) hk (by rw [hi]; rfl) (Or.inr (Or.inr ⟨by rw [hi]; rfl, rfl, rfl⟩))
  | growNull hi hg => exact h.step_growNull hi hg
  | grow hi hg h0 => exact h.step_grow hi hg h0
  | growFew hi hg h0 hn =>
    rw [slabOf_div] at hn
    exact absurd (slabNodes_gt _) hn
  | link hi hlt hp => exact h.step_link hi hlt hp
  | linkDone hi hle => exact h.step_linkDone hi hle
  | linkNull hi hp => exact absurd hp (h.link_not_null hi)
  | lockSlab hi hfree =>
    rw [hi] at hk
    exact h.quiet (t := .last _ _) hk (by rw [hi]; rfl) (Or.inr (Or.inl ⟨hfree, rfl, rfl⟩))
  | last hi => exact h.step_last hi
  | splice hi => exact h.step_splice hi
  | retSlab hi => exact h.give (by rw [hi]; rfl) (by rw [hi]; rfl)
  | free hi hb => exact h.step_free hi hb
  | freeTooLong hi hb hn => exact absurd (allocClass_eq (h.live_len hb)) (hn _)
  | freeNull hi hb => exact h.step_freeNull hi hb
  | scribble hi =>
    rw [hi] at hk
    exact h.work (b := (_, _)) (by rw [hi]; exact List.mem_cons_self) (sameOff_fill _ _ _ _)
      hk (by rw [hi]; rfl) (by rw [hi]; rfl)
  | load hi =>
    rw [hi] at hk
    exact h.stay (t := .loaded _ _ _) ⟨hk, h.free_lt _⟩ (by rw [hi]; rfl) (by rw [hi]; rfl)
  | store hi => exact h.step_store hi
  | push hi hold => exact h.step_push hi hold
  | retry hi =>
    rw [hi] at hk
    exact h.stay (t := .loaded _ _ _) ⟨hk.1, h.free_lt _⟩ (by rw [hi]; rfl) (by rw [hi]; rfl)
  | write hi hb hm => exact h.step_write hi hb hm

/-! ### The contract -/

/-- **The invariant holds in every interleaving.** -/
theorem inv_of_reachable (h : Reachable Start Next s) : Inv s :=
  h.invariant (fun _ h0 => h0.inv) fun _ _ hi ⟨_, _, hs⟩ => hi.step hs

/-- What a step does to the blocks of the callers. -/
structure Contract (s : State ι) (ev : Event) (s' : State ι) : Prop where
  /-- what is returned is cleared and shares no byte with a block of a caller -/
  returned : ∀ len off, ev = .returned len off → off ≠ 0 → Zero s'.arena.mem off len ∧
    ∀ b ∈ s.live, Disjoint (Set.Ico off (off + roundLen len)) (Set.Ico b.1 (b.1 + roundLen b.2))
  /-- only `region_grow` makes an allocation fail -/
  failed : ∀ len, ev = .returned len 0 → ∃ env, ¬ s.arena.region.Room env (slabLen len)
  /-- a block keeps its contents until it is freed, but for the stores of callers -/
  kept : ∀ b ∈ s.live, b ∈ s'.live → ev ≠ .wrote b →
    ∀ x, Covers (b.1, roundLen b.2) x → s'.arena.mem x = s.arena.mem x
  /-- no block is lost but where the mapping of the caller ends -/
  leaked : (∀ b, ev ≠ .lost b) → s'.leaked = s.leaked

theorem Inv.apart_live (h : Inv s) {i : ι} {b b' : Block} (hb : b ∈ (s.threads i).blocks)
    (hb' : b' ∈ s.live) :
    Disjoint (Set.Ico b.1 (b.1 + roundLen b.2)) (Set.Ico b'.1 (b'.1 + roundLen b'.2)) := by
  obtain ⟨L, A, F, hp⟩ := h.blocks
  rw [Set.disjoint_left]
  exact fun x hx hx' => hp.apart_live hb' hb x hx' hx

theorem Inv.block_ne_zero (h : Inv s) {i : ι} {b : Block} (hb : b ∈ (s.threads i).blocks) :
    b.1 ≠ 0 := by
  obtain ⟨L, A, F, hp⟩ := h.blocks
  have h1 := hp.inv.live_inside (hp.held_mem hb)
  have h2 := hp.inv.lo_pos
  omega

theorem Inv.step_returned (h : Inv s) {s' : State ι} {i : ι} {len off : ℕ}
    (hs : Step i s (.returned len off) s') :
    (off ≠ 0 ∧ (off, len) ∈ (s.threads i).blocks ∧ Zero s'.arena.mem off len) ∨
      (off = 0 ∧ ∃ env, ¬ s.arena.region.Room env (slabLen len)) := by
  have hk := h.knows i
  cases hs with
  | ret hi =>
    have hb : (off, len) ∈ (s.threads i).blocks := by rw [hi]; exact List.mem_cons_self
    rw [hi] at hk
    exact Or.inl ⟨h.block_ne_zero hb, hb, hk.2⟩
  | retFailed hi =>
    rw [hi] at hk
    exact absurd hk id
  | @growNull env _ _ _ hi hg =>
    obtain ⟨-, -, -, ⟨hr, -, -⟩ | ⟨-, h0, -⟩⟩ := h.growth hg
    · exact Or.inr ⟨rfl, env, hr⟩
    · exact absurd rfl h0
  | linkNull hi hp => exact absurd hp (h.link_not_null hi)
  | retSlab hi =>
    have hb : (off, len) ∈ (s.threads i).blocks := by rw [hi]; exact List.mem_cons_self
    rw [hi] at hk
    exact Or.inl ⟨h.block_ne_zero hb, hb, hk.2⟩

/-- **What a step stores**: inside a block of its thread, or inside a block of a caller. -/
theorem Inv.step_mem (h : Inv s) {s' : State ι} {i : ι} {ev : Event} (hs : Step i s ev s') :
    s'.arena.mem = s.arena.mem ∨
      (∃ b ∈ (s.threads i).blocks, SameOff s.arena.mem s'.arena.mem b.1 (roundLen b.2)) ∨
      ∃ b ∈ s.live, ev = .wrote b ∧ SameOff s.arena.mem s'.arena.mem b.1 (roundLen b.2) := by
  have hk := h.knows i
  have hown : ∀ {len off : ℕ} {t : Thread}, s.threads i = t → t.blocks = [(off, len)] →
      (off, len) ∈ (s.threads i).blocks := by
    intro len off t hi hb
    rw [hi, hb]
    exact List.mem_cons_self
  cases hs with
  | clear hi => exact Or.inr (Or.inl ⟨_, hown hi rfl, sameOff_fill _ _ _ _⟩)
  | growNull _ hg => exact Or.inl (h.growth hg).2.1
  | grow _ hg => exact Or.inl (h.growth hg).2.1
  | growFew _ hg => exact Or.inl (h.growth hg).2.1
  | link hi hlt hp =>
    obtain ⟨rfl, -, -⟩ := regionPtr_eq_some hp
    exact Or.inr (Or.inl ⟨_, h.link_block hi hlt, sameOff_link _ _ _ _⟩)
  | @last len start hi =>
    refine Or.inr (Or.inl ⟨(lastOf start len, roundLen len), ?_, ?_⟩)
    · rw [hi]
      exact last_block _ _
    · rw [stop_sub]
      exact sameOff_link _ _ _ _
  | scribble hi => exact Or.inr (Or.inl ⟨_, hown hi rfl, sameOff_fill _ _ _ _⟩)
  | @store len off old hi =>
    exact Or.inr (Or.inl ⟨_, hown hi rfl, sameOff_pushed _ off len old⟩)
  | write hi hb hm => exact Or.inr (Or.inr ⟨_, hb, rfl, hm⟩)
  | _ => exact Or.inl rfl

/-- **Every step of every interleaving meets the contract.** -/
theorem Inv.contract (h : Inv s) {s' : State ι} {i : ι} {ev : Event} (hs : Step i s ev s') :
    Contract s ev s' := by
  refine ⟨?_, ?_, fun b hb _ hne x hx => ?_, fun hne => ?_⟩
  · rintro len off rfl h0
    obtain ⟨-, hb, hz⟩ | ⟨h1, -⟩ := h.step_returned hs
    · exact ⟨hz, fun b hlive => h.apart_live hb hlive⟩
    · exact absurd h1 h0
  · rintro len rfl
    obtain ⟨h1, -⟩ | ⟨-, hr⟩ := h.step_returned hs
    · exact absurd rfl h1
    · exact hr
  · obtain hm | ⟨b', hb', hm⟩ | ⟨b', hb', rfl, hm⟩ := h.step_mem hs
    · rw [hm]
    · exact hm x fun hx' => Set.disjoint_left.mp (h.apart_live hb' hb) hx' hx
    · refine hm x fun hx' => ?_
      obtain ⟨L, A, F, hp⟩ := h.blocks
      have hmem : ∀ {b}, b ∈ s.live → b ∈ L := fun hb => hp.mem.mpr (Or.inl hb)
      have := hp.inv.apart (hmem hb) (hmem hb') fun he => hne (he ▸ rfl)
      have h1 := hx.1
      have h2 := hx.2
      dsimp only at h2
      omega
  · cases hs with
    | linkNull hi hp => exact absurd hp (h.link_not_null hi)
    | freeNull => exact absurd rfl (hne _)
    | _ => rfl

/-! ### Progress -/

/-- A thread that is to cut a slab cuts it or returns 0. -/
theorem Inv.fill_moves (h : Inv s) {i : ι} {len : ℕ} (hi : s.threads i = .fill len) :
    CanMove s i := by
  obtain ⟨L, A, F, hp⟩ := h.blocks
  obtain ⟨start, r, f, hrun, -⟩ :=
    regionGrow_spec hp.inv.owner ⟨true, true⟩ (slab_fits (classOf len)).1
  rcases eq_or_ne start 0 with rfl | h0
  · exact canMove_of_step (.growNull hi hrun) (goto_self ..) (by simp [hi])
  · exact canMove_of_step (.grow hi hrun h0 (by rw [slabOf_div]; exact slabNodes_gt len))
      (goto_self ..) (by simp [hi])

theorem Inv.link_moves (h : Inv s) {i : ι} {len start node : ℕ}
    (hi : s.threads i = .link len start node) : CanMove s i := by
  have hpos : 0 < roundLen len := classLen_pos _
  by_cases hlt : node + roundLen len < stopOf start (roundLen len)
  · exact canMove_of_step (.link hi hlt ((h.link_ptr hi).1 hlt)) (goto_self ..)
      (by simp [hi]; omega)
  · exact canMove_of_step (.linkDone hi hlt ((h.link_ptr hi).2 hlt)) (goto_self ..) (by simp [hi])

/-- **A thread inside a call moves on, or waits for the lock.** -/
theorem Inv.progress (h : Inv s) {i : ι} (hi : s.threads i ≠ .idle) :
    CanMove s i ∨ ((s.threads i).waits = true ∧ s.lock = true) := by
  have hk := h.knows i
  have hwait : (s.lock = false → CanMove s i) → (s.threads i).waits = true →
      CanMove s i ∨ ((s.threads i).waits = true ∧ s.lock = true) := fun hm hw => by
    rcases hl : s.lock with _ | _
    · exact Or.inl (hm hl)
    · exact Or.inr ⟨hw, rfl⟩
  generalize ht : s.threads i = t at hk hwait
  cases t with
  | idle => exact absurd ht hi
  | locking len =>
    exact hwait (fun hl => canMove_of_step (.lock ht hl) (goto_self ..) (by simp [ht])) rfl
  | linked len start =>
    exact hwait (fun hl => canMove_of_step (.lockSlab ht hl) (goto_self ..) (by simp [ht])) rfl
  | locked len =>
    exact Or.inl (canMove_of_step (.head ht hk) (goto_self ..) (by split_ifs <;> simp [ht]))
  | exchange len =>
    exact Or.inl (canMove_of_step (.exchange ht) (goto_self ..) (by split_ifs <;> simp [ht]))
  | pop len =>
    have hp := h.head_ptr hk.2
    exact Or.inl (canMove_of_step (.pop ht hp.1 hp.2) (goto_self ..) (by simp [ht]))
  | clear len off => exact Or.inl (canMove_of_step (.clear ht) (goto_self ..) (by simp [ht]))
  | cleared len off => exact Or.inl (canMove_of_step (.ret ht) (goto_self ..) (by simp [ht]))
  | failed len => exact absurd hk id
  | empty len => exact Or.inl (canMove_of_step (.unlock ht) (goto_self ..) (by simp [ht]))
  | fill len => exact Or.inl (h.fill_moves ht)
  | link len start node => exact Or.inl (h.link_moves ht)
  | last len start => exact Or.inl (canMove_of_step (.last ht) (goto_self ..) (by simp [ht]))
  | splice len start => exact Or.inl (canMove_of_step (.splice ht) (goto_self ..) (by simp [ht]))
  | spliced len start => exact Or.inl (canMove_of_step (.retSlab ht) (goto_self ..) (by simp [ht]))
  | free len off => exact Or.inl (canMove_of_step (.scribble ht) (goto_self ..) (by simp [ht]))
  | scribbled len off => exact Or.inl (canMove_of_step (.load ht) (goto_self ..) (by simp [ht]))
  | loaded len off old => exact Or.inl (canMove_of_step (.store ht) (goto_self ..) (by simp [ht]))
  | push len off old => exact Or.inl (canMove_of_step (.retry ht) (goto_self ..) (by simp [ht]))
  | aborted => exact absurd hk id

/-- **No deadlock**: while a thread is inside a call, some thread inside a call moves on. -/
theorem Inv.no_deadlock (h : Inv s) {i : ι} (hi : s.threads i ≠ .idle) :
    ∃ j, s.threads j ≠ .idle ∧ CanMove s j := by
  rcases h.progress hi with hm | ⟨-, hl⟩
  · exact ⟨i, hi, hm⟩
  · obtain ⟨j, hj⟩ := h.guarded.iff.mp hl
    have hne : s.threads j ≠ .idle := fun h0 => by rw [h0] at hj; cases hj
    refine ⟨j, hne, (h.progress hne).resolve_right fun hw => ?_⟩
    rw [waits_not_holds hw.1] at hj
    cases hj

/-! ### A call that nobody disturbs -/

/-- The thread has gone on by itself to `t`; then `l` is the lock, `live` are the blocks of the callers
and `r` is the region. -/
structure Goes (i : ι) (s : State ι) (t : Thread) (l : Bool) (live : List Block) (r : Region)
    (s' : State ι) : Prop where
  reached : Relation.ReflTransGen Next s s'
  threads : s'.threads = Function.update s.threads i t
  lock : s'.lock = l
  live : s'.live = live
  region : s'.arena.region = r

section Goes
variable {i : ι} {t t' : Thread} {l l' : Bool} {bs bs' : List Block} {r r' : Region}
  {s₁ s₂ : State ι}

omit [Fintype ι] in
theorem Goes.at (h : Goes i s t l bs r s₁) : s₁.threads i = t := by
  rw [h.threads, Function.update_self]

omit [Fintype ι] in
theorem Step.goes {ev : Event} (hs : Step i s ev s₁)
    (ht : s₁.threads = Function.update s.threads i t) (hl : s₁.lock = l) (hb : s₁.live = bs)
    (hr : s₁.arena.region = r) : Goes i s t l bs r s₁ :=
  ⟨.single ⟨i, ev, hs⟩, ht, hl, hb, hr⟩

omit [Fintype ι] in
theorem Goes.trans (h : Goes i s t l bs r s₁) (h' : Goes i s₁ t' l' bs' r' s₂) :
    Goes i s t' l' bs' r' s₂ := by
  refine ⟨h.reached.trans h'.reached, ?_, h'.lock, h'.live, h'.region⟩
  rw [h'.threads, h.threads, Function.update_idem]

theorem Inv.later (h : Inv s) (hr : Relation.ReflTransGen Next s s₁) : Inv s₁ := by
  induction hr with
  | refl => exact h
  | tail _ hs ih =>
    obtain ⟨j, ev, hs⟩ := hs
    exact ih.step hs

end Goes

variable {i : ι} {len : ℕ}

theorem Inv.pop_goes (h : Inv s) (hi : s.threads i = .pop len) :
    ∃ off s', Goes i s .idle false ((off, len) :: s.live) s.arena.region s' := by
  have hk := h.knows i
  rw [hi] at hk
  have hp := h.head_ptr hk.2
  have h₁ := (Step.pop hi hp.1 hp.2).goes rfl rfl rfl rfl
  have h₂ := (Step.clear h₁.at).goes rfl rfl rfl rfl
  exact ⟨_, _, (h₁.trans h₂).trans ((Step.ret h₂.at).goes rfl rfl rfl rfl)⟩

theorem Inv.link_goes (h : Inv s) {start node : ℕ} (hi : s.threads i = .link len start node) :
    ∃ s', Goes i s (.linked len start) s.lock s.live s.arena.region s' := by
  have hpos : 0 < roundLen len := classLen_pos _
  induction hd : stopOf start (roundLen len) - node using Nat.strongRecOn generalizing s node with
  | _ d ih =>
    by_cases hlt : node + roundLen len < stopOf start (roundLen len)
    · have hs := Step.link hi hlt ((h.link_ptr hi).1 hlt)
      have h₁ := hs.goes (t := .link len start (node + roundLen len)) rfl rfl rfl rfl
      obtain ⟨s', h₂⟩ := ih _ (by omega) (h.step hs) h₁.at rfl
      exact ⟨s', h₁.trans h₂⟩
    · exact ⟨_, (Step.linkDone hi hlt ((h.link_ptr hi).2 hlt)).goes rfl rfl rfl rfl⟩

/-- A slab is had, and its first block returned. -/
theorem Inv.fill_goes (h : Inv s) (hi : s.threads i = .fill len) (hl : s.lock = false)
    {env : GrowEnv} (hroom : s.arena.region.Room env (slabLen len)) :
    ∃ r s', Goes i s .idle false ((s.arena.region.pos, len) :: s.live) r s' ∧
      r.pos = s.arena.region.pos + slabLen len ∧
      r.vmaLen = s.arena.region.grownLen (slabLen len) := by
  obtain ⟨L, A, F, hp⟩ := h.blocks
  obtain ⟨start, r, f, hrun, -, -, -, ⟨hn, -⟩ | ⟨-, rfl, hpos, hvma⟩⟩ :=
    regionGrow_spec hp.inv.owner env (slab_fits (classOf len)).1
  · exact absurd hroom hn
  have h0 : s.arena.region.pos ≠ 0 := hp.inv.owner.pos_pos.ne'
  have hs := Step.grow hi hrun h0 (by rw [slabOf_div]; exact slabNodes_gt len)
  have h₁ := hs.goes rfl rfl rfl rfl
  obtain ⟨s₂, h₂⟩ := (h.step hs).link_goes h₁.at
  have h₃ := (Step.lockSlab h₂.at (h₂.lock.trans hl)).goes rfl rfl h₂.live h₂.region
  have h₄ := (Step.last h₃.at).goes rfl rfl h₃.live h₃.region
  have h₅ := (Step.splice h₄.at).goes rfl rfl h₄.live h₄.region
  have h₆ := (Step.retSlab h₅.at).goes rfl rfl (congrArg (List.cons _) h₅.live) h₅.region
  exact ⟨r, _, ((((h₁.trans h₂).trans h₃).trans h₄).trans h₅).trans h₆, hpos, hvma⟩

omit [Fintype ι] in
theorem lock_goes (hi : s.threads i = .idle) (hl : s.lock = false) (hlen : len ≤ allocMaxLen) :
    ∃ t s', Goes i s t true s.live s.arena.region s' ∧ (t = .exchange len ∨ t = .pop len) := by
  have h₁ := (Step.alloc hi hlen).goes rfl rfl rfl rfl
  have h₂ := (Step.lock h₁.at (h₁.lock.trans hl)).goes rfl rfl h₁.live h₁.region
  have h₃ := (Step.head h₂.at hlen).goes rfl h₂.lock h₂.live h₂.region
  exact ⟨_, _, (h₁.trans h₂).trans h₃, ite_eq_or_eq ..⟩

omit [Fintype ι] in
theorem exchange_goes (hi : s.threads i = .exchange len) :
    ∃ t s', Goes i s t s.lock s.live s.arena.region s' ∧ (t = .empty len ∨ t = .pop len) :=
  ⟨_, _, (Step.exchange hi).goes rfl rfl rfl rfl, ite_eq_or_eq ..⟩

/-- **A call of `alloc_alloc` that nobody disturbs returns a block**, if there is room for a slab. -/
theorem Inv.alloc_goes (h : Inv s) (hi : s.threads i = .idle) (hl : s.lock = false)
    (hlen : len ≤ allocMaxLen) {env : GrowEnv} (hroom : s.arena.region.Room env (slabLen len)) :
    ∃ off r s', Goes i s .idle false ((off, len) :: s.live) r s' ∧ (r = s.arena.region ∨
      (r.pos = s.arena.region.pos + slabLen len ∧
        r.vmaLen = s.arena.region.grownLen (slabLen len))) := by
  obtain ⟨t, s₁, h₁, rfl | rfl⟩ := lock_goes hi hl hlen
  · obtain ⟨t, s₂, h₂, ht⟩ := exchange_goes h₁.at
    rw [h₁.live, h₁.region] at h₂
    have h₁₂ := h₁.trans h₂
    rcases ht with rfl | rfl
    · have h₃ := (Step.unlock h₂.at).goes rfl rfl h₂.live h₂.region
      have h₁₃ := h₁₂.trans h₃
      obtain ⟨r, s', h₄, hr⟩ := (h.later h₁₃.reached).fill_goes h₃.at h₃.lock (by rwa [h₃.region])
      rw [h₃.live, h₃.region] at h₄
      rw [h₃.region] at hr
      exact ⟨_, r, s', h₁₃.trans h₄, Or.inr hr⟩
    · obtain ⟨off, s', h₃⟩ := (h.later h₁₂.reached).pop_goes h₂.at
      rw [h₂.live, h₂.region] at h₃
      exact ⟨off, _, s', h₁₂.trans h₃, Or.inl rfl⟩
  · obtain ⟨off, s', h₂⟩ := (h.later h₁.reached).pop_goes h₁.at
    rw [h₁.live, h₁.region] at h₂
    exact ⟨off, _, s', h₁.trans h₂, Or.inl rfl⟩

/-- **A block is freed** up to the exchange that puts it on the list. -/
theorem Inv.free_goes (h : Inv s) (hi : s.threads i = .idle) {off : ℕ} (hb : (off, len) ∈ s.live) :
    ∃ old s', Goes i s (.push len off old) s.lock (s.live.erase (off, len)) s.arena.region s' := by
  obtain ⟨L, A, F, hp⟩ := h.blocks
  have hptr := hp.inv.ptr (hp.mem.mpr (Or.inl hb)) le_rfl
  have h₁ := (Step.free hi hb (h.live_len hb) (by rw [hptr]; rfl)).goes rfl rfl rfl rfl
  have h₂ := (Step.scribble h₁.at).goes rfl rfl rfl rfl
  have h₃ := (Step.load h₂.at).goes rfl rfl rfl rfl
  have h₄ := (Step.store h₃.at).goes rfl rfl rfl rfl
  exact ⟨_, _, ((h₁.trans h₂).trans h₃).trans h₄⟩

/-- **The allocator under any number of threads.** In every state of every interleaving each byte
that was handed out is in one block, which a caller holds, one thread knows, a list has or a caller
could not reach when it freed it; at most one thread has the lock; no assertion has failed; every
step meets its contract and some thread inside a call can always go on. -/
theorem allocator_threads_safe (h : Reachable Start Next s) : Safe s ∧
    (∀ i ev s', Step i s ev s' → Contract s ev s') ∧
    ∀ i, s.threads i ≠ .idle → ∃ j, s.threads j ≠ .idle ∧ CanMove s j :=
  have hi := inv_of_reachable h
  ⟨hi.safe, fun _ _ _ hs => hi.contract hs, fun _ hi' => hi.no_deadlock hi'⟩

/-- Two threads at a region just created. -/
def twoIdle : State (Fin 2) := ⟨fresh.arena, false, fun _ => .idle, [], []⟩

/-- The first thread allocates twice and begins to free, before the second one takes the lock. -/
theorem two_reachable : ∃ (s : State (Fin 2)) (p q old : ℕ), Reachable Start Next s ∧
    s.live = [(p, 8)] ∧ s.threads 0 = .push 8 q old ∧ s.threads 1 = .locked 8 := by
  have h0 : Start twoIdle := ⟨start_fresh, rfl, fun _ => rfl, rfl⟩
  have hinv := inv_of_reachable (.of_start h0)
  have hlen : 8 ≤ allocMaxLen := by decide
  have hroom₀ : twoIdle.arena.region.Room ⟨true, true⟩ (slabLen 8) := by decide
  obtain ⟨p, r, s₁, h₁, hr⟩ := hinv.alloc_goes (i := 0) rfl rfl hlen hroom₀
  have hroom : r.Room ⟨true, true⟩ (slabLen 8) := by
    rcases hr with rfl | ⟨hpos, hvma⟩
    · exact hroom₀
    · rw [Region.Room, hpos, hvma]
      decide
  have hinv₁ := hinv.later h₁.reached
  obtain ⟨q, r', s₂, h₂, -⟩ := hinv₁.alloc_goes h₁.at h₁.lock hlen (h₁.region ▸ hroom)
  rw [h₁.live] at h₂
  have hlive : (q, 8) ∈ s₂.live := h₂.live ▸ List.mem_cons_self
  obtain ⟨old, s₃, h₃⟩ := (hinv₁.later h₂.reached).free_goes h₂.at hlive
  rw [h₂.live, List.erase_cons_head, h₂.lock] at h₃
  have hidle : s₃.threads 1 = .idle := by
    rw [h₃.threads, h₂.threads, h₁.threads]
    rfl
  have h₄ := (Step.alloc hidle hlen).goes rfl h₃.lock h₃.live rfl
  have h₅ := (Step.lock h₄.at h₄.lock).goes rfl rfl h₄.live rfl
  have hrun := (((h₁.trans h₂).trans h₃).reached.trans h₄.reached).trans h₅.reached
  refine ⟨_, p, q, old, ⟨twoIdle, h0, hrun⟩, h₅.live, ?_, h₅.at⟩
  rw [h₅.threads, h₄.threads, h₃.threads]
  rfl

/-- The contract for blocks in the hands of a caller and of a thread. -/
theorem allocator_threads_safe_two : ∃ (s : State (Fin 2)) (p q old : ℕ), s.live = [(p, 8)] ∧
    s.threads 0 = .push 8 q old ∧ s.threads 1 = .locked 8 ∧ Safe s ∧
    (∀ i ev s', Step i s ev s' → Contract s ev s') ∧
    ∀ i, s.threads i ≠ .idle → ∃ j, s.threads j ≠ .idle ∧ CanMove s j := by
  obtain ⟨s, p, q, old, hr, hlive, h0, h1⟩ := two_reachable
  have h := allocator_threads_safe hr
  exact ⟨s, p, q, old, hlive, h0, h1, h.1, h.2.1, h.2.2⟩

end Steps

end Optics.AllocatorThreads
