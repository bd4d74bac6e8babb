import Optics.Regions
import Mathlib.Data.Fin.Basic
import Mathlib.Tactic.NormNum

/-! # The block allocator

`alloc.c`: blocks come in 21 size classes. A class keeps two lists of free blocks, linked through the
first word of each block: `alloc`, from which blocks are handed out under the lock, and `free`, on
which blocks are pushed without a lock and which is moved over wholesale once `alloc` is empty. When
both are empty a slab of 256 or 16 blocks is cut from newly grown memory, its first block is handed
out and the others are chained.

The struct lies in the header of the region, in front of every block, so the model keeps it apart
from the memory of the blocks. The spin-lock is left out: the model is the sequential one. -/

namespace Optics.Allocator

open Optics.Base Optics.Lib.Bytes Optics.Utils.Bits Optics.Regions

def allocMinLen : ℕ := 8
def allocMidInc : ℕ := 16
def allocMidLen : ℕ := 256
def allocMaxLen : ℕ := 4096

/-- `[0, 8]` is one class, `]8, 256]` sixteen, `]256, 4096]` four. -/
def allocClasses : ℕ := 1 + 16 + 4

instance : NeZero allocClasses := ⟨by decide⟩

structure AllocClass where
  alloc : ℕ
  free : ℕ
  deriving DecidableEq, Repr

/-- `struct alloc`: the lists of the classes. -/
abbrev Alloc := Fin allocClasses → AllocClass

/-- The allocator with the region it hands out, as the owner of the region sees them. -/
structure Arena where
  region : Region
  file : File
  alloc : Alloc

/-- The memory of the blocks. -/
abbrev Arena.mem (s : Arena) : Mem := s.file.mem

/-- The arena with other memory contents. -/
def Arena.setMem (s : Arena) (m : Mem) : Arena := { s with file := { s.file with mem := m } }

/-- The arena with other lists for one class. -/
def Arena.setClass (s : Arena) (c : Fin allocClasses) (k : AllocClass) : Arena :=
  { s with alloc := Function.update s.alloc c k }

@[simp] theorem setMem_mem (s : Arena) (m : Mem) : (s.setMem m).mem = m := rfl
@[simp] theorem setMem_file_mem (s : Arena) (m : Mem) : (s.setMem m).file.mem = m := rfl
@[simp] theorem setMem_region (s : Arena) (m : Mem) : (s.setMem m).region = s.region := rfl
@[simp] theorem setMem_alloc (s : Arena) (m : Mem) : (s.setMem m).alloc = s.alloc := rfl
@[simp] theorem setMem_setMem (s : Arena) (m m' : Mem) :
    (s.setMem m).setMem m' = s.setMem m' := rfl
@[simp] theorem setClass_region (s : Arena) (c : Fin allocClasses) (k : AllocClass) :
    (s.setClass c k).region = s.region := rfl
@[simp] theorem setClass_file (s : Arena) (c : Fin allocClasses) (k : AllocClass) :
    (s.setClass c k).file = s.file := rfl
@[simp] theorem setClass_mem (s : Arena) (c : Fin allocClasses) (k : AllocClass) :
    (s.setClass c k).mem = s.mem := rfl
@[simp] theorem setClass_alloc (s : Arena) (c : Fin allocClasses) (k : AllocClass) :
    (s.setClass c k).alloc = Function.update s.alloc c k := rfl

/-! ### Size classes -/

/-- The assertion on a computed class. -/
def classIdx (k : ℕ) : Outcome (Fin allocClasses) :=
  if h : k < allocClasses then .ok ⟨k, h⟩ else .error .abort

/-- `alloc_class`: the class of a length and the length of its blocks. -/
def allocClass (len : ℕ) : Outcome (Fin allocClasses × ℕ) := do
  opticsAssert (len ≤ allocMaxLen)
  if len ≤ allocMinLen then .ok (0, allocMinLen)
  else if len ≤ allocMidLen then do
    let c ← classIdx (ceilDiv len allocMidInc)
    .ok (c, ceilDiv len allocMidInc * allocMidInc)
  else do
    let c ← classIdx (ctz (ceilPow2 len) - ctz allocMidLen + allocMidLen / allocMidInc)
    .ok (c, ceilPow2 len)

/-! ### Slabs -/

/-- The loop of `alloc_fill_class` from the block at `node` on: every block but the last links to
the one behind it. The flag is false if a block could not be accessed. -/
def linkNodes (r : Region) (len stop : ℕ) : ℕ → ℕ → Mem → Outcome (Bool × Mem)
  | 0, _, _ => .error .diverge
  | fuel + 1, node, m =>
    if node + len < stop then
      match regionPtr r node 8 with
      | none => .ok (false, m)
      | some p => linkNodes r len stop fuel (node + len) (store64 m p (node + len))
    else .ok (true, m)

/-- `alloc_fill_class`: cut a slab into blocks, hand out the first, chain the others. -/
def allocFillClass (env : GrowEnv) (s : Arena) (len : ℕ) (c : Fin allocClasses) :
    Outcome (ℕ × Arena) := do
  let slab := len * (if len ≤ allocMidLen then 256 else 16)
  let (start, region, file) ← regionGrow env s.region s.file slab
  let s : Arena := { s with region := region, file := file }
  if start = 0 then .ok (0, s)
  else do
    let nodes := slab / len
    let stop := start + nodes * len
    opticsAssert (nodes > 2)
    let (linked, m) ← linkNodes s.region len stop nodes (start + len) s.mem
    if !linked then .ok (0, s.setMem m)
    else
      match regionPtr s.region (stop - len) 8 with
      | none => .ok (0, s.setMem m)
      | some plast =>
        let m := store64 m plast (s.alloc c).alloc
        .ok (start, (s.setMem m).setClass c { s.alloc c with alloc := start + len })

/-! ### Allocation -/

/-- `alloc_init`. -/
def allocInit : Alloc := fun _ => ⟨0, 0⟩

/-- An empty `alloc` list takes over the whole `free` list. -/
def drainFree (k : AllocClass) : AllocClass := if k.alloc = 0 then ⟨k.free, 0⟩ else k

/-- `alloc_alloc`: the offset of a block, or 0. -/
def allocAlloc (env : GrowEnv) (s : Arena) (len : ℕ) : Outcome (ℕ × Arena) := do
  opticsAssert (len ≤ allocMaxLen)
  let (c, len) ← allocClass len
  let s := s.setClass c (drainFree (s.alloc c))
  if (s.alloc c).alloc = 0 then allocFillClass env s len c
  else
    let off := (s.alloc c).alloc
    match regionPtr s.region off len with
    | none => .ok (0, s)
    | some pnode => do
      let next := load64 s.mem pnode
      opticsAssert (off ≠ next)
      .ok (off, (s.setMem (fill s.mem pnode 0 len)).setClass c { s.alloc c with alloc := next })

/-- `alloc_free`: the block is scribbled over and pushed on the `free` list of its class. -/
def allocFree (s : Arena) (off len : ℕ) : Outcome Arena := do
  opticsAssert (len ≤ allocMaxLen)
  let (c, len) ← allocClass len
  match regionPtr s.region off len with
  | none => .ok s
  | some pnode =>
    let m := fill s.mem pnode 0xFF len
    let old := (s.alloc c).free
    .ok ((s.setMem (store64 m pnode old)).setClass c { s.alloc c with free := off })

/-! ### The classes, in closed form -/

/-- The length of the blocks of a class. -/
def classLen (c : Fin allocClasses) : ℕ :=
  if c.val = 0 then 8 else if c.val ≤ 16 then c.val * 16 else 2 ^ (c.val - 8)

/-- The class a length falls in. -/
def classOf (len : ℕ) : Fin allocClasses :=
  match allocClass len with
  | .ok (c, _) => c
  | .error _ => 0

/-- The length a request is rounded up to. -/
def roundLen (len : ℕ) : ℕ := classLen (classOf len)

theorem classLen_ge (c : Fin allocClasses) : 8 ≤ classLen c := by
  revert c; decide

theorem classLen_pos (c : Fin allocClasses) : 0 < classLen c :=
  lt_of_lt_of_le (by decide) (classLen_ge c)

theorem classIdx_ok {k : ℕ} (h : k < allocClasses) : classIdx k = .ok ⟨k, h⟩ := dif_pos h

/-- The range `]2^k, 2^(k+1)]` of the large classes. -/
theorem allocClass_large {len k : ℕ} (hk : 8 ≤ k) (hk' : k ≤ 11) (h1 : 2 ^ k < len)
    (h2 : len ≤ 2 ^ (k + 1)) : ∃ c : Fin allocClasses, c.val = k + 9 ∧
      allocClass len = .ok (c, classLen c) := by
  have hc : ceilPow2 len = 2 ^ (k + 1) := ceilPow2_eq (by omega) h1 h2
  have h256 : 2 ^ 8 ≤ 2 ^ k := Nat.pow_le_pow_right (by decide) hk
  have h4096 : 2 ^ (k + 1) ≤ 2 ^ 12 := Nat.pow_le_pow_right (by decide) (by omega)
  refine ⟨⟨k + 9, by unfold allocClasses; omega⟩, rfl, ?_⟩
  unfold allocClass
  rw [opticsAssert_pos (by unfold allocMaxLen; omega), ok_bind,
    if_neg (by unfold allocMinLen; omega), if_neg (by unfold allocMidLen; omega), hc]
  interval_cases k <;> rfl

/-- The range `]8, 256]` of the middle classes. -/
theorem allocClass_mid {len : ℕ} (h1 : 8 < len) (h2 : len ≤ 256) : ∃ c : Fin allocClasses,
    c.val ≠ 0 ∧ c.val ≤ 16 ∧ len ≤ c.val * 16 ∧ allocClass len = .ok (c, classLen c) := by
  have hd : ceilDiv len allocMidInc = (len - 1) / 16 + 1 := if_neg (by omega)
  have hlt : (len - 1) / 16 + 1 < allocClasses := by unfold allocClasses; omega
  refine ⟨⟨(len - 1) / 16 + 1, hlt⟩, by simp, by simp; omega, by simp; omega, ?_⟩
  unfold allocClass
  rw [opticsAssert_pos (by unfold allocMaxLen; omega), ok_bind,
    if_neg (by unfold allocMinLen; omega), if_pos (by unfold allocMidLen; omega), hd,
    classIdx_ok hlt, ok_bind]
  unfold classLen allocMidInc
  rw [if_neg (by simp), if_pos (by simp; omega)]

/-- **Every length up to the maximum has a class, whose blocks are long enough.** -/
theorem allocClass_spec {len : ℕ} (h : len ≤ allocMaxLen) :
    allocClass len = .ok (classOf len, roundLen len) ∧ len ≤ roundLen len := by
  suffices hs : ∃ c, allocClass len = .ok (c, classLen c) ∧ len ≤ classLen c by
    obtain ⟨c, hc, hle⟩ := hs
    have hco : classOf len = c := by unfold classOf; rw [hc]
    unfold roundLen
    rw [hco]
    exact ⟨hc, hle⟩
  unfold allocMaxLen at h
  rcases Nat.lt_or_ge 8 len with h8 | h8
  swap
  · refine ⟨0, ?_, h8⟩
    unfold allocClass
    rw [opticsAssert_pos (by unfold allocMaxLen; omega), ok_bind,
      if_pos (show len ≤ allocMinLen from h8)]
    rfl
  rcases Nat.lt_or_ge 256 len with h256 | h256
  swap
  · obtain ⟨c, h1, h2, h3, hc⟩ := allocClass_mid h8 h256
    exact ⟨c, hc, by unfold classLen; rw [if_neg h1, if_pos h2]; exact h3⟩
  have hk : ∃ k, 8 ≤ k ∧ k ≤ 11 ∧ 2 ^ k < len ∧ len ≤ 2 ^ (k + 1) := by
    rcases Nat.lt_or_ge 512 len with h9 | h9
    swap; · exact ⟨8, by norm_num; omega⟩
    rcases Nat.lt_or_ge 1024 len with h10 | h10
    swap; · exact ⟨9, by norm_num; omega⟩
    rcases Nat.lt_or_ge 2048 len with h11 | h11
    swap; · exact ⟨10, by norm_num; omega⟩
    exact ⟨11, by norm_num; omega⟩
  obtain ⟨k, hk8, hk11, h1, h2⟩ := hk
  obtain ⟨c, hck, hc⟩ := allocClass_large hk8 hk11 h1 h2
  refine ⟨c, hc, ?_⟩
  unfold classLen
  rw [if_neg (by omega), if_neg (by omega), hck, show k + 9 - 8 = k + 1 by omega]
  exact h2

theorem allocClass_eq {len : ℕ} (h : len ≤ allocMaxLen) :
    allocClass len = .ok (classOf len, roundLen len) := (allocClass_spec h).1

theorem le_roundLen {len : ℕ} (h : len ≤ allocMaxLen) : len ≤ roundLen len := (allocClass_spec h).2

end Optics.Allocator
