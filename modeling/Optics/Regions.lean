import Optics.Lib.Bytes
import Optics.Utils.Bits

/-! # Shared memory regions

`region.c`: a region is a file in shared memory, mapped whole by the process that created it
(`regionCreate`), which alone may grow it (`regionGrow`), and mapped at the length it has at that
moment by a process that opens it (`regionOpen`). Memory is named by its offset in the file, which
is what the processes share; a pointer into a mapping is the offset it points at.

Of a `struct region` the model keeps what decides an access: `owned`, `min_pos`, `pos` and the length
of the newest mapping. The older mappings stay valid and are not told apart. The lock serialises
calls of `region_grow`, and a sequential run never waits for it. Which of the system calls of a grow
operation succeed is given by a `GrowEnv`. -/

namespace Optics.Regions

open Optics.Base Optics.Lib.Bytes Optics.Utils.Bits

def pageLen : ℕ := 4096
def cacheLineLen : ℕ := 64
def regionDefaultLen : ℕ := 1 * 1024 * 1024

/-- The longest name a shared memory object may have, its terminator included. -/
def nameMax : ℕ := 255

/-- A file in shared memory. -/
structure File where
  len : ℕ
  mem : Mem

/-- `ftruncate`: the bytes kept are unchanged, the bytes gained are zero. -/
def File.ftruncate (f : File) (n : ℕ) : File :=
  ⟨n, fun a => if a < f.len ∧ a < n then f.mem a else 0⟩

/-- One process's view of a region. -/
structure Region where
  owned : Bool
  minPos : ℕ
  pos : ℕ
  vmaLen : ℕ
  deriving DecidableEq, Repr

/-- Whether the `ftruncate` and the `mmap` of a call succeed. -/
structure GrowEnv where
  ftruncate : Bool
  mmap : Bool
  deriving DecidableEq, Repr

/-- The bytes of `"optics."`. -/
def shmPrefix : List UInt8 := [111, 112, 116, 105, 99, 115, 46]

/-- `region_shm_name`: the name fits, terminator included. -/
def regionShmName (name : CStr) : Option CStr :=
  if shmPrefix.length + name.val.length < nameMax then
    some ⟨shmPrefix ++ name.val, by
      rw [List.mem_append, not_or]; exact ⟨by decide, name.property⟩⟩
  else none

/-- `region_create` for a header of `len` bytes; `shmOpen` is the outcome of `shm_open`. -/
def regionCreate (shmOpen : Bool) (env : GrowEnv) (name : CStr) (len : ℕ) :
    Option (Region × File) :=
  match regionShmName name with
  | none => none
  | some _ =>
    if shmOpen && env.ftruncate && env.mmap then
      some (⟨true, len, align len cacheLineLen, regionDefaultLen⟩,
        ⟨regionDefaultLen, fun _ => 0⟩)
    else none

/-- `region_open`: the file is mapped at its current length. -/
def regionOpen (shmOpen : Bool) (mmap : Bool) (name : CStr) (f : File) : Option Region :=
  match regionShmName name with
  | none => none
  | some _ => if shmOpen && mmap then some ⟨false, 0, f.len, f.len⟩ else none

/-- The loop `while (new_len <= new_pos) new_len *= 2`. A 64-bit word doubled 64 times is zero, and
doubling zero never ends. -/
def growLen : ℕ → ℕ → ℕ → Outcome ℕ
  | 0, _, _ => .error .diverge
  | fuel + 1, newLen, newPos =>
    if newLen ≤ newPos then growLen fuel (w64 (newLen * 2)) newPos else .ok newLen

/-- `region_grow`: the old position, or 0 on failure. -/
def regionGrow (env : GrowEnv) (r : Region) (f : File) (len : ℕ) :
    Outcome (ℕ × Region × File) :=
  if !r.owned then .ok (0, r, f)
  else
    let oldPos := r.pos
    let newPos := w64 (oldPos + len)
    if newPos ≤ r.vmaLen then .ok (oldPos, { r with pos := newPos }, f)
    else do
      let newLen ← growLen 65 r.vmaLen newPos
      -- a length is passed as a signed `off_t`: from 2^63 on it is negative and refused
      if !env.ftruncate || decide (2 ^ 63 ≤ newLen) then .ok (0, r, f)
      else
        let f := f.ftruncate newLen
        if !env.mmap then .ok (0, r, f)
        else .ok (oldPos, { r with pos := newPos, vmaLen := newLen }, f)

/-- `region_ptr_unsafe`: the pointer, as the offset it points at, or none. -/
def regionPtrUnsafe (r : Region) (off len : ℕ) : Option ℕ :=
  if off > r.pos ∨ w64 (off + len) > r.pos then none else some off

/-- `region_ptr`: as `region_ptr_unsafe`, but never into the header. -/
def regionPtr (r : Region) (off len : ℕ) : Option ℕ :=
  if off < r.minPos then none else regionPtrUnsafe r off len

/-! ### Access -/

theorem regionPtr_some {r : Region} {off len : ℕ} (h1 : r.minPos ≤ off) (h2 : off + len ≤ r.pos)
    (h3 : r.pos < 2 ^ 64) : regionPtr r off len = some off := by
  rw [regionPtr, if_neg (by omega), regionPtrUnsafe, w64_eq (by omega), if_neg (by omega)]

theorem regionPtr_eq_some {r : Region} {off len p : ℕ} (h : regionPtr r off len = some p) :
    p = off ∧ r.minPos ≤ off ∧ off ≤ r.pos := by
  unfold regionPtr regionPtrUnsafe at h
  split_ifs at h with h1 h2
  simp only [Option.some.injEq] at h
  omega

/-- Without wrap-around, a pointer is returned exactly for the blocks inside. -/
theorem regionPtr_isSome {r : Region} {off len : ℕ} (h : off + len < 2 ^ 64) :
    (regionPtr r off len).isSome ↔ r.minPos ≤ off ∧ off + len ≤ r.pos := by
  unfold regionPtr regionPtrUnsafe
  rw [w64_eq h]
  split_ifs with h1 h2 <;> simp <;> omega

/-- A file that is zero from `p` on, cut or extended beyond `p`, keeps its contents. -/
theorem ftruncate_mem {f : File} {n p : ℕ} (hz : ∀ a, p ≤ a → f.mem a = 0) (h1 : p ≤ f.len)
    (h2 : p ≤ n) : (f.ftruncate n).mem = f.mem := by
  funext a
  simp only [File.ftruncate]
  split_ifs with h
  · rfl
  · exact (hz a (by omega)).symm

/-! ### Growth -/

/-- The region as its owner keeps it: `pos` inside the mapping, the mapping inside the file, every
byte from `pos` on still zero. -/
structure Region.Owner (r : Region) (f : File) : Prop where
  owned : r.owned = true
  pos_pos : 0 < r.pos
  minPos_le : r.minPos ≤ r.pos
  pos_le : r.pos ≤ r.vmaLen
  vma_le : r.vmaLen ≤ f.len
  vma_lt : r.vmaLen < 2 ^ 63
  vma_ge : regionDefaultLen ≤ r.vmaLen
  zero : ∀ a, r.pos ≤ a → f.mem a = 0

theorem Region.Owner.pos_lt {r : Region} {f : File} (h : r.Owner f) : r.pos < 2 ^ 63 :=
  lt_of_le_of_lt h.pos_le h.vma_lt

/-- One doubling makes room for a slab, which is shorter than any mapping. -/
theorem growLen_eq {vma newPos : ℕ} (h1 : vma ≤ newPos) (h2 : newPos < vma * 2)
    (h3 : vma < 2 ^ 63) : growLen 65 vma newPos = .ok (vma * 2) := by
  rw [growLen, if_pos h1, w64_eq (by omega), growLen, if_neg (by omega)]

/-- A slab of `len` bytes can be had: it fits the mapping, or the file can be grown. -/
def Region.Room (r : Region) (env : GrowEnv) (len : ℕ) : Prop :=
  r.pos + len ≤ r.vmaLen ∨ (env.ftruncate = true ∧ env.mmap = true ∧ r.vmaLen * 2 < 2 ^ 63)

instance (r : Region) (env : GrowEnv) (len : ℕ) : Decidable (r.Room env len) := by
  unfold Region.Room; infer_instance

/-- The length of the mapping once `len` more bytes were handed out. -/
def Region.grownLen (r : Region) (len : ℕ) : ℕ :=
  if r.pos + len ≤ r.vmaLen then r.vmaLen else r.vmaLen * 2

/-- **What `region_grow` does.** It hands out the bytes between the old and the new position, all
zero, or leaves the region and its contents as they were. -/
theorem regionGrow_spec {r : Region} {f : File} (h : r.Owner f) (env : GrowEnv) {len : ℕ}
    (hlen : len < regionDefaultLen) : ∃ start r' f', regionGrow env r f len = .ok (start, r', f') ∧
      r'.Owner f' ∧ f'.mem = f.mem ∧ r'.minPos = r.minPos ∧
      ((¬ r.Room env len ∧ start = 0 ∧ r' = r) ∨
        (r.Room env len ∧ start = r.pos ∧ r'.pos = r.pos + len ∧ r'.vmaLen = r.grownLen len)) := by
  obtain ⟨ho, hp, hmin, hle, hvf, hvl, hvg, hz⟩ := h
  have hw : w64 (r.pos + len) = r.pos + len := w64_eq (by unfold regionDefaultLen at *; omega)
  unfold regionGrow
  simp only [ho, Bool.not_true, Bool.false_eq_true, if_false, hw]
  by_cases hfit : r.pos + len ≤ r.vmaLen
  · rw [if_pos hfit]
    exact ⟨_, _, _, rfl, ⟨rfl, by simp; omega, by simp; omega, hfit, hvf, hvl, hvg,
      fun a ha => hz a (by simp at ha; omega)⟩, rfl, rfl,
      Or.inr ⟨Or.inl hfit, rfl, rfl, (if_pos hfit).symm⟩⟩
  rw [if_neg hfit, growLen_eq (by omega) (by omega) hvl, ok_bind]
  have hroom : r.Room env len ↔ env.ftruncate = true ∧ env.mmap = true ∧ r.vmaLen * 2 < 2 ^ 63 :=
    or_iff_right hfit
  rw [hroom]
  split_ifs with ht hm
  · refine ⟨_, _, _, rfl, ⟨ho, hp, hmin, hle, hvf, hvl, hvg, hz⟩, rfl, rfl, Or.inl ⟨?_, rfl, rfl⟩⟩
    rintro ⟨h1, -, h2⟩
    simp only [h1, Bool.not_true, Bool.false_or, decide_eq_true_eq] at ht
    omega
  · have hmem := ftruncate_mem (n := r.vmaLen * 2) hz (by omega) (by omega)
    refine ⟨_, _, _, rfl, ⟨ho, hp, hmin, hle, by simp [File.ftruncate]; omega, hvl, hvg, ?_⟩, hmem,
      rfl, Or.inl ⟨fun h => ?_, rfl, rfl⟩⟩
    · rw [hmem]; exact hz
    · simp [h.2.1] at hm
  · have hmem := ftruncate_mem (n := r.vmaLen * 2) hz (by omega) (by omega)
    simp only [Bool.or_eq_true, Bool.not_eq_true', decide_eq_true_eq, not_or, not_le,
      Bool.not_eq_false] at ht
    refine ⟨_, _, _, rfl, ⟨rfl, by simp; omega, by simp; omega, by simp; omega,
      by simp [File.ftruncate], ht.2, by simp; omega, fun a ha => ?_⟩, hmem, rfl,
      Or.inr ⟨⟨ht.1, by simpa using hm, ht.2⟩, rfl, rfl, (if_neg hfit).symm⟩⟩
    rw [hmem]; exact hz a (by simp at ha; omega)

theorem regionCreate_owner {b : Bool} {env : GrowEnv} {name : CStr} {len : ℕ} {r : Region}
    {f : File} (h : regionCreate b env name len = some (r, f)) (hlen : 0 < len)
    (hfit : align len cacheLineLen ≤ regionDefaultLen) :
    r.Owner f ∧ r.minPos = len ∧ r.pos = align len cacheLineLen := by
  have hge : len ≤ align len cacheLineLen := ceilDiv_mul_ge len (by decide)
  unfold regionCreate at h
  split at h
  · simp at h
  · split_ifs at h
    simp only [Option.some.injEq, Prod.mk.injEq] at h
    obtain ⟨rfl, rfl⟩ := h
    exact ⟨⟨rfl, by simp; omega, hge, hfit, le_rfl,
      (by decide : regionDefaultLen < 2 ^ 63), le_rfl, fun _ _ => rfl⟩, rfl, rfl⟩

end Optics.Regions
