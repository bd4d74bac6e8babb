import Optics.AllocatorMoves
import Optics.AllocatorThreads
import Optics.Lib.SpinLock
import Mathlib.Tactic.Abel

/-! # No block is lost or handed out twice

The threads of the allocator in any interleaving. A block is in the hands of a caller, known to one
thread only (`held`), on a list, or was freed through a mapping that does not reach it; together these
tile the memory that `region_grow` handed out, as in the sequential allocator (`Inv.blocks`). What a
thread knows of its blocks and, with the lock, of the heads (`Knows`) no other thread can change
(`Knows.frame`), so that an invariant of the whole is kept by every step (`Inv.step`). -/

namespace Optics.AllocatorThreads

open Optics.Base Optics.Lib.Bytes Optics.Lib.LinkedList Optics.Lib.Tiling Optics.Lib.SpinLock
open Optics.Regions Optics.Allocator Optics.AllocatorInv Optics.AllocatorRuns

/-! ### Slabs -/

/-- How many of the blocks that a slab adds to a list link to another block of the slab. -/
def links (n : ℕ) : ℕ := slabNodes n - 2

theorem slabNodes_gt (len : ℕ) : 2 < slabNodes (roundLen len) := (slab_fits (classOf len)).2

theorem slabNodes_eq (len : ℕ) : slabNodes (roundLen len) = links (roundLen len) + 2 := by
  have := slabNodes_gt len
  unfold links
  omega

theorem slabOf_div (len : ℕ) : slabOf (roundLen len) / roundLen len = slabNodes (roundLen len) :=
  Nat.mul_div_cancel_left _ (classLen_pos _)

theorem stopOf_eq (start len : ℕ) : stopOf start (roundLen len) =
    start + roundLen len + links (roundLen len) * roundLen len + roundLen len := by
  rw [stopOf, slabOf_div, slabNodes_eq, Nat.succ_mul, Nat.succ_mul]
  omega

theorem mem_slab {off n k i : ℕ} (h : i < k) : (off + i * n, n) ∈ slab off n k := by
  rw [slab_eq_map]
  exact List.mem_map.mpr ⟨i, List.mem_range.mpr h, rfl⟩

/-! ### The blocks that threads have -/

section Held
variable {ι : Type} [DecidableEq ι] [Fintype ι]

/-- The blocks that only one thread knows. -/
def held (threads : ι → Thread) : Multiset Block := ∑ i, ((threads i).blocks : Multiset Block)

theorem held_update (threads : ι → Thread) (i : ι) (t : Thread) :
    held (Function.update threads i t) + (threads i).blocks = held threads + t.blocks := by
  have hi := Finset.mem_univ i
  have h1 := Finset.add_sum_erase Finset.univ
    (fun j => ((threads j).blocks : Multiset Block)) hi
  have h2 := Finset.add_sum_erase Finset.univ
    (fun j => ((Function.update threads i t j).blocks : Multiset Block)) hi
  have h3 : ∑ j ∈ Finset.univ.erase i, ((Function.update threads i t j).blocks : Multiset Block) =
      ∑ j ∈ Finset.univ.erase i, ((threads j).blocks : Multiset Block) := by
    refine Finset.sum_congr rfl fun j hj => ?_
    rw [Function.update_of_ne (Finset.ne_of_mem_erase hj)]
  simp only [Function.update_self] at h2
  unfold held
  rw [← h1, ← h2, h3]
  abel

theorem blocks_le_held (threads : ι → Thread) (i : ι) :
    ((threads i).blocks : Multiset Block) ≤ held threads := by
  have h := held_update threads i .idle
  rw [show (Thread.idle.blocks : Multiset Block) = 0 from rfl, add_zero] at h
  exact h ▸ Multiset.le_add_left _ _

theorem blocks_add_le_held (threads : ι → Thread) {i j : ι} (h : i ≠ j) :
    ((threads i).blocks + (threads j).blocks : Multiset Block) ≤ held threads := by
  have h1 := held_update threads i .idle
  have h2 := blocks_le_held (Function.update threads i .idle) j
  rw [Function.update_of_ne h.symm] at h2
  rw [show (Thread.idle.blocks : Multiset Block) = 0 from rfl, add_zero] at h1
  rw [← h1, add_comm]
  exact Multiset.add_le_add_right h2

end Held

/-! ### What a thread knows -/

/-- The block is cleared. -/
def Zero (m : Mem) (off len : ℕ) : Prop := ∀ x, Covers (off, roundLen len) x → m x = 0

/-- The blocks behind the first one of a slab, the first `k` of them linked up; the last of these
links to `z`. -/
def Linked (m : Mem) (start len k z : ℕ) : Prop :=
  Seg (load64 m) (start + roundLen len) (slabOffs (start + roundLen len) (roundLen len) k) z

/-- The last block of a slab. -/
def lastOf (start len : ℕ) : ℕ := start + roundLen len + links (roundLen len) * roundLen len

/-- What a thread knows where it is. -/
def Knows (a : Arena) : Thread → Prop
  | .idle => True
  | .locking len | .locked len | .clear len _ | .empty len | .fill len => len ≤ allocMaxLen
  | .free len _ | .scribbled len _ => len ≤ allocMaxLen
  | .loaded len _ old => len ≤ allocMaxLen ∧ old < 2 ^ 64
  | .exchange len => len ≤ allocMaxLen ∧ (a.alloc (classOf len)).alloc = 0
  | .pop len => len ≤ allocMaxLen ∧ (a.alloc (classOf len)).alloc ≠ 0
  | .cleared len off | .spliced len off => len ≤ allocMaxLen ∧ Zero a.mem off len
  | .link len start node => len ≤ allocMaxLen ∧ Zero a.mem start len ∧ ∃ k ≤ links (roundLen len),
      node = start + roundLen len + k * roundLen len ∧ Linked a.mem start len k node
  | .linked len start | .last len start => len ≤ allocMaxLen ∧ Zero a.mem start len ∧
      Linked a.mem start len (links (roundLen len)) (lastOf start len)
  | .splice len start => len ≤ allocMaxLen ∧ Zero a.mem start len ∧
      Linked a.mem start len (links (roundLen len) + 1) (a.alloc (classOf len)).alloc
  | .push len off old => len ≤ allocMaxLen ∧ load64 a.mem off = old
  | .failed _ | .aborted => False

theorem Zero.congr {m m' : Mem} {off len : ℕ} (h : Zero m off len)
    (hm : ∀ x, Covers (off, roundLen len) x → m' x = m x) : Zero m' off len :=
  fun x hx => (hm x hx).trans (h x hx)

theorem Linked.congr {m m' : Mem} {start len k z : ℕ} (h : Linked m start len k z)
    (hm : ∀ b ∈ slab (start + roundLen len) (roundLen len) k, ∀ x, Covers b x → m' x = m x) :
    Linked m' start len k z := by
  refine Seg.congr h fun n hn => load_congr fun x h1 h2 => ?_
  obtain ⟨i, hi, rfl⟩ := mem_slabOffs.mp hn
  have := classLen_ge (classOf len)
  refine hm _ (mem_slab hi) x ⟨h1, ?_⟩
  unfold roundLen at *
  dsimp only
  omega

theorem slab_subset {off n j k : ℕ} (h : j ≤ k) {b : Block} (hb : b ∈ slab off n j) :
    b ∈ slab off n k := by
  rw [slab_eq_map, List.mem_map] at hb
  obtain ⟨i, hi, rfl⟩ := hb
  exact mem_slab (lt_of_lt_of_le (List.mem_range.mp hi) h)

/-- The blocks of a slab behind its first one. -/
def restOf (start len : ℕ) : List Block :=
  slab (start + roundLen len) (roundLen len) (links (roundLen len) + 1)

theorem blocks_slab (start len : ℕ) :
    (start, len) :: slab (start + roundLen len) (roundLen len) (slabNodes (roundLen len) - 1) =
      (start, len) :: restOf start len := by
  rw [slabNodes_eq]; rfl

theorem covers_rest {start len : ℕ} {b : Block} (hb : b ∈ restOf start len) :
    roundLen b.2 = b.2 := by
  unfold restOf at hb
  rw [slab_eq_map, List.mem_map] at hb
  obtain ⟨i, -, rfl⟩ := hb
  simp

/-- **What a thread knows is its own**: it survives changes of memory off its blocks and, without
the lock, any change of the heads. -/
theorem Knows.frame {a a' : Arena} {t : Thread} (h : Knows a t)
    (hm : ∀ b ∈ t.blocks, ∀ x, Covers (b.1, roundLen b.2) x → a'.mem x = a.mem x)
    (hh : t.holds = true → ∀ c, (a'.alloc c).alloc = (a.alloc c).alloc) : Knows a' t := by
  have hrest : ∀ {start len k z : ℕ}, k ≤ links (roundLen len) + 1 →
      (∀ b ∈ restOf start len, ∀ x, Covers (b.1, roundLen b.2) x → a'.mem x = a.mem x) →
      Linked a.mem start len k z → Linked a'.mem start len k z := by
    intro start len k z hk hr hl
    refine hl.congr fun b hb x hx => ?_
    have hb' : b ∈ restOf start len := slab_subset hk hb
    exact hr b hb' x (by rw [covers_rest hb']; exact hx)
  cases t with
  | exchange len | pop len => exact ⟨h.1, by rw [hh rfl]; exact h.2⟩
  | cleared len off | spliced len off =>
    exact ⟨h.1, h.2.congr (hm (off, len) List.mem_cons_self)⟩
  | push len off old =>
    refine ⟨h.1, (load_congr fun x h1 h2 => ?_).trans h.2⟩
    refine hm (off, len) (by simp [Thread.blocks]) x ⟨h1, ?_⟩
    have := classLen_ge (classOf len)
    unfold roundLen
    dsimp only
    omega
  | link len start node =>
    rw [Thread.blocks, blocks_slab] at hm
    obtain ⟨h1, h2, k, hk, hnode, hl⟩ := h
    exact ⟨h1, h2.congr (hm (start, len) List.mem_cons_self), k, hk, hnode,
      hrest (by omega) (fun b hb => hm b (by simp [hb])) hl⟩
  | linked len start | last len start =>
    rw [Thread.blocks, blocks_slab] at hm
    exact ⟨h.1, h.2.1.congr (hm (start, len) List.mem_cons_self),
      hrest (by omega) (fun b hb => hm b (by simp [hb])) h.2.2⟩
  | splice len start =>
    rw [Thread.blocks, blocks_slab] at hm
    refine ⟨h.1, h.2.1.congr (hm (start, len) List.mem_cons_self), ?_⟩
    rw [hh rfl]
    exact hrest le_rfl (fun b hb => hm b (by simp [hb])) h.2.2
  | _ => exact h

/-! ### The invariant -/

section Invariant
variable {ι : Type} [Fintype ι] {s : State ι}

/-- The blocks that are not on a list, and the lists. -/
structure Parts (s : State ι) (L : List Block) (A F : Fin allocClasses → List ℕ) : Prop where
  perm : (L : Multiset Block) = s.live + held s.threads + s.leaked
  inv : AllocatorInv.Inv blockBase s.arena L A F

/-- **The invariant of the threads.** -/
structure Inv (s : State ι) : Prop where
  guarded : Guarded s.lock fun i => (s.threads i).holds
  blocks : ∃ L A F, Parts s L A F
  knows : ∀ i, Knows s.arena (s.threads i)

variable {L : List Block} {A F : Fin allocClasses → List ℕ}

theorem Parts.mem (h : Parts s L A F) {b : Block} : b ∈ L ↔ b ∈ s.live ∨
    b ∈ held s.threads ∨ b ∈ s.leaked := by
  rw [← Multiset.mem_coe, h.perm, Multiset.mem_add, Multiset.mem_add, Multiset.mem_coe,
    Multiset.mem_coe, or_assoc]

theorem Parts.disjoint (h : Parts s L A F) {b b' : Block}
    (hle : ({b} + {b'} : Multiset Block) ≤ L) (x : ℕ) (hx : Covers (b.1, roundLen b.2) x) :
    ¬ Covers (b'.1, roundLen b'.2) x := by
  obtain ⟨r, hr⟩ := Multiset.le_iff_exists_add.mp hle
  have hp : L.Perm (b :: b' :: r.toList) := by
    rw [← Multiset.coe_eq_coe, hr, ← Multiset.cons_coe, ← Multiset.cons_coe, Multiset.coe_toList,
      add_assoc, Multiset.singleton_add, Multiset.singleton_add]
  exact h.inv.live_disjoint hp List.mem_cons_self x hx

/-- The head of a list that is not empty is a block, and its pointer is valid. -/
theorem Inv.head_ptr (h : Inv s) {len : ℕ} (h0 : (s.class len).alloc ≠ 0) :
    regionPtr s.arena.region (s.class len).alloc (roundLen len) = some (s.class len).alloc ∧
      (s.class len).alloc ≠ load64 s.arena.mem (s.class len).alloc := by
  obtain ⟨L, A, F, hp⟩ := h.blocks
  have hch := hp.inv.alloc_chain (classOf len)
  obtain ⟨l, hl, -⟩ := hch.uncons h0
  have hmem : (s.class len).alloc ∈ A (classOf len) := hl ▸ List.mem_cons_self
  have hin := hp.inv.list_inside (Or.inl hmem)
  have hmin := hp.inv.minPos_le
  have hpos := hp.inv.owner.pos_lt
  exact ⟨regionPtr_some (by omega) hin.2 (by omega), (hch.next_ne hmem).symm⟩

theorem Parts.regrow (h : Parts s L A F) {r : Region} {f : File} (ho : r.Owner f)
    (hr : r = s.arena.region) (hm : f.mem = s.arena.mem) :
    AllocatorInv.Inv blockBase { s.arena with region := r, file := f } L A F := by
  subst hr
  refine ⟨ho, h.inv.lo_pos, h.inv.minPos_le, h.inv.lo_le, h.inv.live_len, fun c => ?_, fun c => ?_,
    h.inv.tiles⟩
  · simpa only [Arena.mem, hm] using h.inv.alloc_chain c
  · simpa only [Arena.mem, hm] using h.inv.free_chain c

/-- **`region_grow` for a slab**: it fails for want of room, or the slab begins where the region
ended. -/
theorem Inv.growth (h : Inv s) {env : GrowEnv} {len start : ℕ} {r : Region} {f : File}
    (hg : regionGrow env s.arena.region s.arena.file (slabOf (roundLen len)) = .ok (start, r, f)) :
    r.Owner f ∧ f.mem = s.arena.mem ∧ r.minPos = s.arena.region.minPos ∧
      ((¬ s.arena.region.Room env (slabLen len) ∧ start = 0 ∧ r = s.arena.region) ∨
        (start = s.arena.region.pos ∧ start ≠ 0 ∧ r.pos = s.arena.region.pos +
          (links (roundLen len) + 1 + 1) * roundLen len)) := by
  obtain ⟨L, A, F, hp⟩ := h.blocks
  obtain ⟨start', r', f', hrun, ho, hm, hmin, hres⟩ :=
    regionGrow_spec hp.inv.owner env (slab_fits (classOf len)).1
  rw [show slabOf (roundLen len) = classLen (classOf len) * slabNodes (classLen (classOf len))
    from rfl, hrun] at hg
  cases hg
  refine ⟨ho, hm, hmin, hres.imp id ?_⟩
  rintro ⟨-, rfl, hpos, -⟩
  have := hp.inv.owner.pos_pos
  refine ⟨rfl, by omega, ?_⟩
  rw [hpos, show classLen (classOf len) = roundLen len from rfl, slabNodes_eq, Nat.mul_comm]

theorem Inv.live_len (h : Inv s) {b : Block} (hb : b ∈ s.live) : b.2 ≤ allocMaxLen := by
  obtain ⟨L, A, F, hp⟩ := h.blocks
  exact hp.inv.live_len b (hp.mem.mpr (Or.inl hb))

theorem Inv.locked_len (h : Inv s) {i : ι} {len : ℕ} (hi : s.threads i = .locked len)
    (hn : ∀ r, allocClass len ≠ .ok r) : False := by
  have hk := h.knows i
  rw [hi] at hk
  exact hn _ (allocClass_eq hk)

theorem Inv.free_lt (h : Inv s) (len : ℕ) : (s.class len).free < 2 ^ 64 := by
  obtain ⟨L, A, F, hp⟩ := h.blocks
  have := (hp.inv.head_lt (classOf len)).2
  unfold State.class
  omega

variable [DecidableEq ι]

theorem Parts.held_mem (h : Parts s L A F) {i : ι} {b : Block} (hb : b ∈ (s.threads i).blocks) :
    b ∈ L :=
  h.mem.mpr (Or.inr (Or.inl (Multiset.mem_of_le (blocks_le_held s.threads i) hb)))

theorem Parts.apart (h : Parts s L A F) {i j : ι} (hij : i ≠ j) {b b' : Block}
    (hb : b ∈ (s.threads i).blocks) (hb' : b' ∈ (s.threads j).blocks) (x : ℕ)
    (hx : Covers (b.1, roundLen b.2) x) : ¬ Covers (b'.1, roundLen b'.2) x := by
  refine h.disjoint ?_ x hx
  have h1 : ({b} + {b'} : Multiset Block) ≤ (s.threads i).blocks + (s.threads j).blocks :=
    add_le_add (Multiset.singleton_le.mpr hb) (Multiset.singleton_le.mpr hb')
  refine (h1.trans (blocks_add_le_held _ hij)).trans ?_
  rw [h.perm, add_assoc]
  exact (Multiset.le_add_right _ _).trans (Multiset.le_add_left _ _)

theorem Parts.apart_live (h : Parts s L A F) {i : ι} {b b' : Block} (hb : b ∈ s.live)
    (hb' : b' ∈ (s.threads i).blocks) (x : ℕ) (hx : Covers (b.1, roundLen b.2) x) :
    ¬ Covers (b'.1, roundLen b'.2) x := by
  refine h.disjoint ?_ x hx
  rw [h.perm]
  refine (add_le_add (Multiset.singleton_le.mpr hb)
    ((Multiset.singleton_le.mpr hb').trans (blocks_le_held _ i))).trans (Multiset.le_add_right _ _)

/-- What the step of one thread changes, the thread being `t` after it. -/
structure Moves (s s' : State ι) (i : ι) (t : Thread) : Prop where
  threads : s'.threads = Function.update s.threads i t
  lock : Turn s.lock (s.threads i).holds s'.lock t.holds
  knows : Knows s'.arena t
  mem : ∀ j, j ≠ i → ∀ b ∈ (s.threads j).blocks, ∀ x, Covers (b.1, roundLen b.2) x →
    s'.arena.mem x = s.arena.mem x
  heads : (s.threads i).holds = true ∨ ∀ c, (s'.arena.alloc c).alloc = (s.arena.alloc c).alloc

/-- **One thread moves, the others stay**: what is left to see is the tiling. -/
theorem Inv.moves (h : Inv s) {s' : State ι} {i : ι} {t : Thread} (hm : Moves s s' i t)
    (hb : ∃ L A F, Parts s' L A F) : Inv s' := by
  refine ⟨by rw [hm.threads]; exact h.guarded.goto hm.lock, hb, fun j => ?_⟩
  rw [hm.threads]
  rcases eq_or_ne j i with rfl | hji
  · rw [Function.update_self]
    exact hm.knows
  · rw [Function.update_of_ne hji]
    refine (h.knows j).frame (hm.mem j hji) fun hj c => ?_
    rcases hm.heads with h1 | h1
    · exact absurd (h.guarded.unique j i hj h1) hji
    · exact h1 c

theorem Parts.of_update (h : Parts s L A F) {s' : State ι} {i : ι} {t : Thread} {L' : List Block}
    {A' F' : Fin allocClasses → List ℕ} (ht : s'.threads = Function.update s.threads i t)
    (hL : (L' + (s.live + s.leaked + (s.threads i).blocks) : Multiset Block) =
      L + (s'.live + s'.leaked + t.blocks))
    (hi : AllocatorInv.Inv blockBase s'.arena L' A' F') : Parts s' L' A' F' := by
  refine ⟨?_, hi⟩
  have h1 := held_update s.threads i t
  rw [← ht] at h1
  refine add_right_cancel (b := (s.live + s.leaked + (s.threads i).blocks : Multiset Block)) ?_
  rw [hL, h.perm]
  calc (s.live + held s.threads + s.leaked + (s'.live + s'.leaked + t.blocks) : Multiset Block)
      = s.live + s.leaked + s'.live + s'.leaked + (held s.threads + t.blocks) := by abel
    _ = s.live + s.leaked + s'.live + s'.leaked + (held s'.threads + (s.threads i).blocks) := by
        rw [h1]
    _ = _ := by abel

/-- A step that moves no block. -/
theorem Inv.quiet (h : Inv s) {i : ι} {t : Thread} {l : Bool} (hk : Knows s.arena t)
    (hb : t.blocks = (s.threads i).blocks)
    (hl : Turn s.lock (s.threads i).holds l t.holds) :
    Inv { s.goto i t with lock := l } := by
  obtain ⟨L, A, F, hp⟩ := h.blocks
  exact h.moves ⟨rfl, hl, hk, fun _ _ _ _ _ _ => rfl, Or.inr fun _ => rfl⟩
    ⟨L, A, F, hp.of_update rfl (by rw [hb]; rfl) hp.inv⟩

/-- A step to another place with the lock as it is. -/
theorem Inv.stay (h : Inv s) {i : ι} {t : Thread} (hk : Knows s.arena t)
    (hb : t.blocks = (s.threads i).blocks) (hl : t.holds = (s.threads i).holds) :
    Inv (s.goto i t) :=
  h.quiet hk hb (Or.inl ⟨rfl, hl⟩)

/-- Work on a block that only the thread knows. -/
theorem Inv.work (h : Inv s) {i : ι} {t : Thread} {b : Block} (hb : b ∈ (s.threads i).blocks)
    {m : Mem} (hm : SameOff s.arena.mem m b.1 (roundLen b.2)) (hk : Knows (s.arena.setMem m) t)
    (ht : t.blocks = (s.threads i).blocks) (hl : t.holds = (s.threads i).holds) :
    Inv ((s.setMem m).goto i t) := by
  obtain ⟨L, A, F, hp⟩ := h.blocks
  refine h.moves ⟨rfl, Or.inl ⟨rfl, hl⟩, hk, fun j hj b' hb' x hx => hm x fun hx' => ?_,
    Or.inr fun _ => rfl⟩ ⟨L, A, F, hp.of_update rfl (by rw [ht]; rfl) (hp.inv.write (hp.held_mem hb) hm)⟩
  exact hp.apart hj hb' hb x hx hx'

theorem Inv.give (h : Inv s) {i : ι} {b : Block} (hb : (s.threads i).blocks = [b])
    (hl : (s.threads i).holds = true) :
    Inv { s.goto i .idle with lock := false, live := b :: s.live } := by
  obtain ⟨L, A, F, hp⟩ := h.blocks
  refine h.moves ⟨rfl, Or.inr (Or.inr ⟨hl, rfl, rfl⟩), trivial, fun _ _ _ _ _ _ => rfl,
    Or.inr fun _ => rfl⟩ ⟨L, A, F, hp.of_update rfl ?_ hp.inv⟩
  rw [hb]
  simp only [State.goto, Thread.blocks, ← Multiset.cons_coe, ← Multiset.singleton_add]
  simp only [Multiset.coe_nil, add_zero]
  abel

end Invariant

end Optics.AllocatorThreads
