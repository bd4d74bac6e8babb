import Optics.AllocatorRuns
import Optics.Lenses
import Optics.Utils.Htables

/-! # The registry

`optics.c`: the list of lenses and the table of their names, the epoch, and the memory whose release
is put off until the epoch has passed. The functions are those of one process running alone; the
lock they take is left out. A `struct optics` is kept with the parts of the header they use. -/

namespace Optics.Registry

open Optics.Base Optics.Lib.Bytes Optics.Regions Optics.Allocator Optics.Lenses
open Optics.AllocatorRuns (sizeofHeader)
open Optics.Utils.Htables

/-- `struct optics`, with the header it points to. -/
structure StructOptics where
  arena : Arena
  epoch : ℕ
  epochLastInc : ℕ
  epochDefers : Fin 2 → ℕ
  lensHead : ℕ
  headerPrefix : CStr
  keys : Htable

/-- The same with another arena. -/
def StructOptics.setArena (o : StructOptics) (s : Arena) : StructOptics := { o with arena := s }

@[simp] theorem setArena_arena (o : StructOptics) (s : Arena) : (o.setArena s).arena = s := rfl
@[simp] theorem setArena_epoch (o : StructOptics) (s : Arena) :
    (o.setArena s).epoch = o.epoch := rfl
@[simp] theorem setArena_epochDefers (o : StructOptics) (s : Arena) :
    (o.setArena s).epochDefers = o.epochDefers := rfl
@[simp] theorem setArena_lensHead (o : StructOptics) (s : Arena) :
    (o.setArena s).lensHead = o.lensHead := rfl
@[simp] theorem setArena_keys (o : StructOptics) (s : Arena) : (o.setArena s).keys = o.keys := rfl

/-- `optics_set_prefix`: `strlcpy` cuts nothing of a name that is short enough. -/
def opticsSetPrefix (o : StructOptics) (name : CStr) : Option StructOptics :=
  if name.strnlen opticsNameMaxLen = opticsNameMaxLen then none
  else some { o with headerPrefix := name }

/-- `optics_create_at`. The header was cleared with the rest of the file. -/
def opticsCreateAt (shmOpen : Bool) (env : GrowEnv) (name : CStr) (now : ℕ) :
    Option StructOptics := do
  let (region, file) ← regionCreate shmOpen env name sizeofHeader
  let _ ← regionPtrUnsafe region 0 sizeofHeader
  let o : StructOptics := ⟨⟨region, file, allocInit⟩, 0, 0, fun _ => 0, 0, CStr.empty, Htable.zero⟩
  let o ← opticsSetPrefix o name
  some { o with epochLastInc := now }

/-! ### Deferred frees -/

/-- The size of `struct optics_defer`: `off`, `len` and `next`. -/
def sizeofDefer : ℕ := 3 * 8

/-- `pnode->off`. -/
def deferOff (m : Mem) (node : ℕ) : ℕ := load64 m node

/-- `pnode->len`. -/
def deferLen (m : Mem) (node : ℕ) : ℕ := load64 m (node + 8)

/-- `pnode->next`. -/
def deferNext (m : Mem) (node : ℕ) : ℕ := load64 m (node + 16)

/-- `optics_epoch`. -/
def opticsEpoch (o : StructOptics) : Fin 2 := ⟨o.epoch % 2, Nat.mod_lt _ Nat.two_pos⟩

/-- `optics_defer_free`: a node that names the block is pushed on the list of the current epoch. -/
def opticsDeferFree (env : GrowEnv) (o : StructOptics) (off len : ℕ) :
    Outcome (Bool × StructOptics) := do
  let (node, s) ← allocAlloc env o.arena sizeofDefer
  let o := o.setArena s
  if node = 0 then .ok (false, o)
  else
    match regionPtr s.region node sizeofDefer with
    | none => .ok (false, o)
    | some pnode =>
      let m := store64 s.mem pnode off
      let m := store64 m (pnode + 8) len
      let epoch := opticsEpoch o
      let m := store64 m (pnode + 16) (o.epochDefers epoch)
      .ok (true, { o.setArena (s.setMem m) with
        epochDefers := Function.update o.epochDefers epoch node })

/-- The loop of `optics_free_defered`. -/
def freeDefered (s : Arena) : ℕ → ℕ → Outcome Arena
  | 0, _ => .error .diverge
  | fuel + 1, node =>
    if node = 0 then .ok s
    else
      match regionPtr s.region node sizeofDefer with
      | none => .ok s
      | some pnode => do
        let s ← allocFree s (deferOff s.mem pnode) (deferLen s.mem pnode)
        let next := deferNext s.mem pnode
        let s ← allocFree s node sizeofDefer
        freeDefered s fuel next

/-- `optics_free_defered`. The nodes lie at different offsets of the file, so that its length bounds
the number of rounds. -/
def opticsFreeDefered (o : StructOptics) (epoch : Fin 2) : Outcome StructOptics := do
  let node := o.epochDefers epoch
  let o := { o with epochDefers := Function.update o.epochDefers epoch 0 }
  let s ← freeDefered o.arena (o.arena.file.len + 1) node
  .ok (o.setArena s)

/-- `optics_epoch_inc`: the epoch that was left. -/
def opticsEpochInc (o : StructOptics) : Outcome (Fin 2 × StructOptics) := do
  let o ← opticsFreeDefered o (opticsEpoch o + 1)
  .ok (opticsEpoch o, { o with epoch := w64 (o.epoch + 1) })

/-- `optics_epoch_inc_at`: as `optics_epoch_inc`, with the time of the last call. -/
def opticsEpochIncAt (o : StructOptics) (now : ℕ) : Outcome (Fin 2 × ℕ × StructOptics) := do
  let lastInc := o.epochLastInc
  let (epoch, o) ← opticsEpochInc { o with epochLastInc := now }
  .ok (epoch, lastInc, o)

/-- The same shared memory in a process that has mapped the region as `view`. -/
def StructOptics.seenBy (o : StructOptics) (view : Region) : StructOptics :=
  o.setArena { o.arena with region := view }

/-- What `optics_open` maps: the file at the length it has, header included. -/
def openedRegion (len : ℕ) : Region := ⟨false, 0, len, len⟩

/-! ### The list -/

/-- `optics_push_lens`. -/
def opticsPushLens (o : StructOptics) (lens : ℕ) : Outcome StructOptics := do
  let s ← lensSetNext o.arena lens o.lensHead
  .ok { o.setArena s with lensHead := lensOff s.mem lens }

/-- `optics_remove_lens`. -/
def opticsRemoveLens (o : StructOptics) (lens : ℕ) : Outcome StructOptics := do
  let s ← lensKill o.arena lens
  let o := o.setArena s
  .ok (if o.lensHead = lensOff s.mem lens then { o with lensHead := lensNext s.mem lens } else o)

/-! ### Lenses -/

/-- `optics_lens_get`: the lens of a name. -/
def opticsLensGet (o : StructOptics) (name : CStr) : Outcome (Option ℕ × StructOptics) := do
  let (keys, ret) ← htableGet htableHash o.keys name
  let o := { o with keys := keys }
  .ok (if ret.ok then some ((lensPtr o.arena ret.value).getD 0) else none, o)

/-- `optics_lens_alloc`: the lens is entered in the table and the list, unless its name is taken. -/
def opticsLensAlloc (o : StructOptics) (lens : ℕ) : Outcome (Option ℕ × StructOptics) := do
  let (keys, ret) ← htablePut htableHash o.keys (lensName o.arena.mem lens) (lensOff o.arena.mem lens)
  let o := { o with keys := keys }
  if ret.ok then do
    let o ← opticsPushLens o lens
    .ok (some lens, o)
  else .ok (none, o)

/-- `optics_lens_alloc_get`: as `optics_lens_alloc`, but with the lens of a name that is taken. -/
def opticsLensAllocGet (o : StructOptics) (lens : ℕ) : Outcome (ℕ × StructOptics) := do
  let (keys, ret) ← htablePut htableHash o.keys (lensName o.arena.mem lens) (lensOff o.arena.mem lens)
  let o := { o with keys := keys }
  if ret.ok then do
    let o ← opticsPushLens o lens
    .ok (lens, o)
  else .ok ((lensPtr o.arena ret.value).getD 0, o)

/-- `optics_lens_free`. The lens leaves the table and the list at once, its memory is released
later. -/
def opticsLensFree (env : GrowEnv) (o : StructOptics) (lens : ℕ) :
    Outcome (Bool × StructOptics) := do
  let (keys, ret) ← htableDel htableHash o.keys (lensName o.arena.mem lens)
  let o := { o with keys := keys }
  if !ret.ok then .ok (false, o)
  else do
    let o ← opticsRemoveLens o lens
    opticsDeferFree env o (lensOff o.arena.mem lens) (lensTotalLen o.arena.mem lens)

/-! ### The allocators of the types -/

/-- The body the functions `optics_counter_alloc`, … share, given what `lens_counter_alloc`, …
returned. -/
def opticsAlloc (o : StructOptics) (made : Outcome (Option ℕ × Arena)) :
    Outcome (Option ℕ × StructOptics) := do
  let (lens, s) ← made
  let o := o.setArena s
  match lens with
  | none => .ok (none, o)
  | some lens => do
    let (ol, o) ← opticsLensAlloc o lens
    match ol with
    | some ol => .ok (some ol, o)
    | none => do
      let s ← lensFree o.arena lens
      .ok (none, o.setArena s)

/-- The body the functions `optics_counter_alloc_get`, … share. -/
def opticsAllocGet (o : StructOptics) (made : Outcome (Option ℕ × Arena)) :
    Outcome (Option ℕ × StructOptics) := do
  let (lens, s) ← made
  let o := o.setArena s
  match lens with
  | none => .ok (none, o)
  | some lens => do
    let (ol, o) ← opticsLensAllocGet o lens
    if ol ≠ lens then do
      let s ← lensFree o.arena lens
      .ok (some ol, o.setArena s)
    else .ok (some ol, o)

section Typed
variable (env : GrowEnv) (o : StructOptics) (name : CStr)

def opticsCounterAlloc := opticsAlloc o (lensCounterAlloc env o.arena name)
def opticsCounterAllocGet := opticsAllocGet o (lensCounterAlloc env o.arena name)

def opticsGaugeAlloc := opticsAlloc o (lensGaugeAlloc env o.arena name)
def opticsGaugeAllocGet := opticsAllocGet o (lensGaugeAlloc env o.arena name)

def opticsDistAlloc := opticsAlloc o (lensDistAlloc env o.arena name)
def opticsDistAllocGet := opticsAllocGet o (lensDistAlloc env o.arena name)

def opticsHistoAlloc (buckets : List ℕ) := opticsAlloc o (lensHistoAlloc env o.arena name buckets)
def opticsHistoAllocGet (buckets : List ℕ) :=
  opticsAllocGet o (lensHistoAlloc env o.arena name buckets)

def opticsQuantileAlloc (targetQuantile estimate adjustmentValue : UInt64) :=
  opticsAlloc o (lensQuantileAlloc env o.arena name targetQuantile estimate adjustmentValue)
def opticsQuantileAllocGet (targetQuantile estimate adjustmentValue : UInt64) :=
  opticsAllocGet o (lensQuantileAlloc env o.arena name targetQuantile estimate adjustmentValue)

/-- The function `optics_X_alloc` of a type. -/
def opticsTypedAlloc : LensArgs → Outcome (Option ℕ × StructOptics)
  | .counter => opticsCounterAlloc env o name
  | .gauge => opticsGaugeAlloc env o name
  | .dist => opticsDistAlloc env o name
  | .histo buckets => opticsHistoAlloc env o name buckets
  | .quantile t e a => opticsQuantileAlloc env o name t e a

/-- The function `optics_X_alloc_get` of a type. -/
def opticsTypedAllocGet : LensArgs → Outcome (Option ℕ × StructOptics)
  | .counter => opticsCounterAllocGet env o name
  | .gauge => opticsGaugeAllocGet env o name
  | .dist => opticsDistAllocGet env o name
  | .histo buckets => opticsHistoAllocGet env o name buckets
  | .quantile t e a => opticsQuantileAllocGet env o name t e a

end Typed

end Optics.Registry
