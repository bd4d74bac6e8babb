import Optics.AllocatorInv
import Optics.Lib.Runs

/-! # Runs of the allocator

The states the allocator reaches from a fresh region, its callers allocating, freeing what they hold
and writing what they hold, while any of the calls of `region_grow` fail (`Step`). The partition
invariant holds in all of them (`exists_inv`), so in all of them every call returns. -/

namespace Optics.AllocatorRuns

open Optics.Base Optics.Lib.Bytes Optics.Lib.LinkedList Optics.Lib.Tiling Optics.Lib.Runs
open Optics.Utils.Bits Optics.Regions Optics.Allocator Optics.AllocatorInv

/-- The size of `struct alloc`. -/
def sizeofAlloc : ℕ := 8 + allocClasses * 16

/-- The size of `struct optics_header`, in the order of its fields. -/
def sizeofHeader : ℕ := 8 + 8 + 8 + 8 + 2 * 8 + 8 + 256 + sizeofAlloc

/-- Where the blocks begin: the end of the header, aligned. -/
def blockBase : ℕ := align sizeofHeader cacheLineLen

/-- The allocator and the blocks its callers hold, with the lengths they asked for. -/
structure State where
  arena : Arena
  live : List Block

/-- `region_create` followed by `alloc_init`. -/
def Start (s : State) : Prop :=
  ∃ shmOpen env name r f, regionCreate shmOpen env name sizeofHeader = some (r, f) ∧
    s = ⟨⟨r, f, allocInit⟩, []⟩

/-- One call of a caller. -/
inductive Step : State → State → Prop
  /-- `alloc_alloc`, some of the system calls under it failing -/
  | alloc {s : State} {env : GrowEnv} {len off : ℕ} {a : Arena} (hlen : len ≤ allocMaxLen)
      (h : allocAlloc env s.arena len = .ok (off, a)) :
      Step s ⟨a, if off = 0 then s.live else (off, len) :: s.live⟩
  /-- `alloc_free` of a block that is held -/
  | free {s : State} {off len : ℕ} {a : Arena} (hb : (off, len) ∈ s.live)
      (h : allocFree s.arena off len = .ok a) : Step s ⟨a, s.live.erase (off, len)⟩
  /-- stores into a block that is held -/
  | write {s : State} {b : Block} {m : Mem} (hb : b ∈ s.live)
      (hm : SameOff s.arena.mem m b.1 (roundLen b.2)) : Step s ⟨s.arena.setMem m, s.live⟩

theorem inv_start {s : State} (h : Start s) :
    Inv blockBase s.arena s.live (fun _ => []) fun _ => [] := by
  obtain ⟨_, _, _, r, f, hc, rfl⟩ := h
  obtain ⟨hown, hmin, hpos⟩ := regionCreate_owner hc (by decide) (by decide)
  refine ⟨hown, by decide, ?_, hpos.ge, by simp, fun _ => chain_nil.mpr rfl,
    fun _ => chain_nil.mpr rfl, fun a => ?_⟩
  · show r.minPos ≤ blockBase
    rw [hmin]; decide
  · have h0 : cover (listBlocks fun _ => []) a = 0 := by
      rw [cover_listBlocks]; simp
    rw [cover_append, cover_append, h0, show liveBlocks [] = [] from rfl, cover_nil,
      show Arena.region ⟨r, f, allocInit⟩ = r from rfl, hpos, if_neg (by unfold blockBase; omega)]

theorem inv_step {s s' : State} (h : ∃ A F, Inv blockBase s.arena s.live A F) (hs : Step s s') :
    ∃ A F, Inv blockBase s'.arena s'.live A F := by
  obtain ⟨A, F, h⟩ := h
  cases hs with
  | alloc hlen hrun =>
    obtain ⟨off, a, hrun', hres⟩ := allocAlloc_spec h _ hlen
    rw [hrun'] at hrun
    cases hrun
    rcases hres with ⟨-, rfl, hn⟩ | ⟨-, hoff, A', F', ha⟩
    · exact ⟨A, F, hn.inv⟩
    · rw [if_neg hoff]; exact ⟨A', F', ha.inv⟩
  | free hb hrun =>
    obtain ⟨a, hrun', hi, -⟩ := allocFree_spec h hb
    rw [hrun'] at hrun
    cases hrun
    exact ⟨_, _, hi⟩
  | write hb hm => exact ⟨A, F, h.write hb hm⟩

/-- **The partition invariant holds in every reachable state.** -/
theorem exists_inv {s : State} (h : Reachable Start Step s) :
    ∃ A F, Inv blockBase s.arena s.live A F :=
  h.invariant (I := fun s => ∃ A F, Inv blockBase s.arena s.live A F)
    (fun _ h0 => ⟨_, _, inv_start h0⟩) fun _ _ => inv_step

/-! ### The allocator's contract -/

/-- All blocks: those held and those on the lists of the classes. -/
def allBlocks (live : List Block) (A F : Fin allocClasses → List ℕ) : List Block :=
  liveBlocks live ++ listBlocks A ++ listBlocks F

/-- The lists of the classes, and how the blocks cut up the memory that was handed out. -/
structure Partition (s : State) (A F : Fin allocClasses → List ℕ) : Prop where
  alloc_chain : ∀ c, Chain (load64 s.arena.mem) (s.arena.alloc c).alloc (A c)
  free_chain : ∀ c, Chain (load64 s.arena.mem) (s.arena.alloc c).free (F c)
  acyclic : ∀ c, (A c).Nodup ∧ (F c).Nodup
  disjoint : (allBlocks s.live A F).Pairwise fun b b' =>
    Disjoint (Set.Ico b.1 (b.1 + b.2)) (Set.Ico b'.1 (b'.1 + b'.2))
  inside : ∀ b ∈ allBlocks s.live A F, blockBase ≤ b.1 ∧ b.1 + b.2 ≤ s.arena.region.pos
  exactly_one : ∀ a, blockBase ≤ a → a < s.arena.region.pos →
    ∃! b, b ∈ allBlocks s.live A F ∧ Covers b a

/-- What a call of `alloc_alloc` in the state `s` that returns `off` has done. -/
structure AllocContract (s : State) (len off : ℕ) (a : Arena) : Prop where
  /-- a block is cleared, long enough, and disjoint from those held -/
  block : off ≠ 0 → len ≤ roundLen len ∧ (∀ x, Covers (off, roundLen len) x → a.mem x = 0) ∧
    ∀ b ∈ s.live, Disjoint (Set.Ico off (off + roundLen len)) (Set.Ico b.1 (b.1 + roundLen b.2))
  /-- what is held keeps its contents -/
  frame : ∀ b ∈ s.live, ∀ x, Covers (b.1, roundLen b.2) x → a.mem x = s.arena.mem x
  /-- a failure leaves the lists and every byte as they were -/
  failed : off = 0 → a.alloc = s.arena.alloc ∧ a.mem = s.arena.mem ∧ a.region = s.arena.region

theorem block_pos {live : List Block} {A F : Fin allocClasses → List ℕ} {b : Block}
    (hb : b ∈ allBlocks live A F) : 0 < b.2 := by
  simp only [allBlocks, liveBlocks, listBlocks, classBlocks, List.mem_append, List.mem_map,
    List.mem_flatMap] at hb
  rcases hb with (⟨b, -, rfl⟩ | ⟨c, -, n, -, rfl⟩) | ⟨c, -, n, -, rfl⟩
  all_goals exact classLen_pos _

theorem partition_of_inv {s : State} {A F : Fin allocClasses → List ℕ}
    (h : Inv blockBase s.arena s.live A F) : Partition s A F where
  alloc_chain := h.alloc_chain
  free_chain := h.free_chain
  acyclic c := ⟨(h.alloc_chain c).nodup, (h.free_chain c).nodup⟩
  disjoint := h.tiles.pairwise
  inside _ hb := h.tiles.block_inside hb (block_pos hb)
  exactly_one a h1 h2 := by
    obtain ⟨b, hb, hba⟩ := h.tiles.exists_covers h1 h2
    exact ⟨b, ⟨hb, hba⟩, fun b' ⟨hb', hba'⟩ => h.tiles.unique hb hb' hba hba'⟩

theorem contract_of_inv {s : State} {A F : Fin allocClasses → List ℕ}
    (h : Inv blockBase s.arena s.live A F) (env : GrowEnv) {len : ℕ} (hlen : len ≤ allocMaxLen) :
    ∃ off a, allocAlloc env s.arena len = .ok (off, a) ∧ AllocContract s len off a := by
  obtain ⟨off, a, hrun, hres⟩ := allocAlloc_spec h env hlen
  refine ⟨off, a, hrun, ?_⟩
  rcases hres with ⟨-, rfl, hn⟩ | ⟨-, hoff, A', F', ha⟩
  · exact ⟨fun h0 => absurd rfl h0, fun _ _ x _ => congrFun hn.mem x,
      fun _ => ⟨hn.alloc, hn.mem, hn.region⟩⟩
  · refine ⟨fun _ => ⟨le_roundLen hlen, ha.zero, fun b hb => ?_⟩, ha.frame,
      fun h0 => absurd h0 hoff⟩
    rw [Set.disjoint_left]
    exact fun x hx hx' => ha.inv.live_disjoint (List.Perm.refl _) hb x hx hx'

/-- **The allocator partitions the memory it was given.** In every reachable state the blocks held
and those on the lists of the classes cut up the bytes between the header and the region's position,
the lists are acyclic and end in 0, and every call returns with its contract met. -/
theorem reachable_partition {s : State} (h : Reachable Start Step s) :
    (∃ A F, Partition s A F) ∧
      (∀ env len, len ≤ allocMaxLen →
        ∃ off a, allocAlloc env s.arena len = .ok (off, a) ∧ AllocContract s len off a) ∧
      (∀ b ∈ s.live, ∃ a, allocFree s.arena b.1 b.2 = .ok a) := by
  obtain ⟨A, F, hi⟩ := exists_inv h
  refine ⟨⟨A, F, partition_of_inv hi⟩, fun env len hlen => contract_of_inv hi env hlen,
    fun b hb => ?_⟩
  obtain ⟨a, hrun, -⟩ := allocFree_spec hi hb
  exact ⟨a, hrun⟩

/-- A region just created, with its allocator. -/
def fresh : State :=
  ⟨⟨⟨true, sizeofHeader, blockBase, regionDefaultLen⟩, ⟨regionDefaultLen, fun _ => 0⟩, allocInit⟩, []⟩

theorem start_fresh : Start fresh :=
  ⟨true, ⟨true, true⟩, ⟨[97], by decide⟩, _, _, rfl, rfl⟩

theorem alloc_fresh : ∃ a, allocAlloc ⟨true, true⟩ fresh.arena 4096 = .ok (704, a) := by
  have h : (allocAlloc ⟨true, true⟩ fresh.arena 4096).toOption.map Prod.fst = some 704 := by
    decide +kernel
  rcases hr : allocAlloc ⟨true, true⟩ fresh.arena 4096 with e | ⟨off, a⟩
  · rw [hr] at h; cases h
  · rw [hr] at h
    cases h
    exact ⟨a, rfl⟩

/-- The contract once the first block of the largest class is held. -/
theorem reachable_partition_first : ∃ a, allocAlloc ⟨true, true⟩ fresh.arena 4096 = .ok (704, a) ∧
    ∃ A F, Partition ⟨a, [(704, 4096)]⟩ A F := by
  obtain ⟨a, ha⟩ := alloc_fresh
  have hstep : Step fresh ⟨a, [(704, 4096)]⟩ := Step.alloc (by decide) ha
  exact ⟨a, ha, (reachable_partition ((Reachable.of_start start_fresh).tail hstep)).1⟩

end Optics.AllocatorRuns
