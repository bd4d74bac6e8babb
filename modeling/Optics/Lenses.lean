import Optics.Allocator

/-! # Lenses in shared memory

`lens.c`: a lens is a block of the region. Its header holds its own offset, the length of its data,
the length of its name with the terminator, the links of the list of lenses and its type; behind the
header of 64 bytes come the data and the name. The per-type allocators (`lens_counter.c` and its
siblings) differ in the length of the data and in what they write there.

A `struct lens *` is the offset it points at. A null pointer that is dereferenced is a `segv`. -/

namespace Optics.Lenses

open Optics.Base Optics.Lib.Bytes Optics.Regions Optics.Allocator

def opticsNameMaxLen : ℕ := 256
def opticsHistoBucketsMax : ℕ := 8
def opticsDistSamples : ℕ := 200

/-- `enum optics_lens_type`. -/
inductive LensType where
  | counter | gauge | dist | histo | quantile
  deriving DecidableEq, Repr

/-- The number of an enumerator. -/
def LensType.code : LensType → ℕ
  | .counter => 0
  | .gauge => 1
  | .dist => 2
  | .histo => 3
  | .quantile => 4

/-! ### The header -/

def sizeofLens : ℕ := 64

section Fields
variable (m : Mem) (lens : ℕ)

/-- `lens->off`. -/
def lensOff : ℕ := load64 m lens

/-- `lens->lens_len`. -/
def lensLen : ℕ := load64 m (lens + 8)

/-- `lens->name_len`. -/
def nameLen : ℕ := load64 m (lens + 16)

/-- `lens->next`, as `lens_next` reads it. -/
def lensNext : ℕ := load64 m (lens + 24)

/-- `lens->prev`. -/
def lensPrev : ℕ := load64 m (lens + 32)

/-- `lens->type`. -/
def lensType : ℕ := load m 4 (lens + 40)

/-- `lens_name_ptr`. -/
def lensNamePtr : ℕ := lens + sizeofLens + lensLen m lens

/-- `lens_name`: the string at `lens_name_ptr`, of which no reader looks at more than 1024 bytes. -/
def lensName : CStr := ⟨readStr m 1024 (lensNamePtr m lens), zero_notMem_readStr m 1024 _⟩

/-- `lens_total_len`. -/
def lensTotalLen : ℕ := w64 (sizeofLens + nameLen m lens + lensLen m lens)

end Fields

/-! ### Allocation -/

/-- `lens_alloc`: a lens with its name and cleared data, or none. -/
def lensAlloc (env : GrowEnv) (s : Arena) (type : LensType) (len : ℕ) (name : CStr) :
    Outcome (Option ℕ × Arena) := do
  let nameLen := name.strnlen opticsNameMaxLen + 1
  if nameLen = opticsNameMaxLen then .ok (none, s)
  else do
    let totalLen := sizeofLens + nameLen + len
    let (off, s) ← allocAlloc env s totalLen
    if off = 0 then .ok (none, s)
    else
      match regionPtr s.region off totalLen with
      | none => .ok (none, s)
      | some lens =>
        let m := store64 s.mem lens off
        let m := store m 4 (lens + 40) type.code
        let m := store64 m (lens + 8) len
        let m := store64 m (lens + 16) nameLen
        .ok (some lens, s.setMem (write m (lensNamePtr m lens) (name.val.take (nameLen - 1))))

/-- `lens_ptr`: the lens at an offset, if all of it is mapped. -/
def lensPtr (s : Arena) (off : ℕ) : Option ℕ :=
  match regionPtr s.region off sizeofLens with
  | none => none
  | some lens => regionPtr s.region off (lensTotalLen s.mem lens)

/-- `lens_sub_ptr`: the data of a lens of the given type. -/
def lensSubPtr (m : Mem) (lens : ℕ) (type : LensType) : Option ℕ :=
  if lensType m lens ≠ type.code then none else some (lens + sizeofLens)

/-- `lens_free`. -/
def lensFree (s : Arena) (lens : ℕ) : Outcome Arena :=
  allocFree s (lensOff s.mem lens) (lensTotalLen s.mem lens)

/-- `lens_counter_alloc`. -/
def lensCounterAlloc (env : GrowEnv) (s : Arena) (name : CStr) : Outcome (Option ℕ × Arena) :=
  lensAlloc env s .counter (2 * 8) name

/-- `lens_gauge_alloc`. -/
def lensGaugeAlloc (env : GrowEnv) (s : Arena) (name : CStr) : Outcome (Option ℕ × Arena) :=
  lensAlloc env s .gauge 8 name

/-- The size of `struct lens_dist`: two epochs of a lock, `n`, `max` and the samples. -/
def sizeofLensDist : ℕ := 2 * (8 + 8 + 8 + opticsDistSamples * 8)

/-- `lens_dist_alloc`. -/
def lensDistAlloc (env : GrowEnv) (s : Arena) (name : CStr) : Outcome (Option ℕ × Arena) :=
  lensAlloc env s .dist sizeofLensDist name

/-- The size of `struct lens_histo_epoch`. -/
def sizeofLensHistoEpoch : ℕ := 8 + 8 + opticsHistoBucketsMax * 8

/-- The size of `struct lens_histo`. -/
def sizeofLensHisto : ℕ := 2 * sizeofLensHistoEpoch + (opticsHistoBucketsMax + 1) * 8 + 8

/-- `memcpy` of an array of words. -/
def storeWords (m : Mem) (a : ℕ) : List ℕ → Mem
  | [] => m
  | v :: vs => storeWords (store64 m a v) (a + 8) vs

/-- The buckets `lens_histo_alloc` accepts: 2 to 9 bounds, strictly increasing. -/
def histoBucketsOk (buckets : List ℕ) : Bool :=
  2 ≤ buckets.length && buckets.length ≤ opticsHistoBucketsMax + 1 &&
    (buckets.zip buckets.tail).all fun b => !(b.1 ≥ b.2)

/-- `lens_histo_alloc`. -/
def lensHistoAlloc (env : GrowEnv) (s : Arena) (name : CStr) (buckets : List ℕ) :
    Outcome (Option ℕ × Arena) := do
  if !histoBucketsOk buckets then .ok (none, s)
  else do
    let (lens, s) ← lensAlloc env s .histo sizeofLensHisto name
    match lens with
    | none => .ok (none, s)
    | some lens =>
      match lensSubPtr s.mem lens .histo with
      | none => do
        let s ← lensFree s lens
        .ok (none, s)
      | some histo =>
        let m := store64 s.mem (histo + 2 * sizeofLensHistoEpoch + (opticsHistoBucketsMax + 1) * 8)
          buckets.length
        .ok (some lens, s.setMem (storeWords m (histo + 2 * sizeofLensHistoEpoch) buckets))

/-- The size of `struct lens_quantile`. -/
def sizeofLensQuantile : ℕ := 3 * 8 + 8 + 2 * 8

/-- `lens_quantile_alloc`; the doubles are given by their bits. -/
def lensQuantileAlloc (env : GrowEnv) (s : Arena) (name : CStr)
    (targetQuantile originalEstimate adjustmentValue : UInt64) : Outcome (Option ℕ × Arena) := do
  let (lens, s) ← lensAlloc env s .quantile sizeofLensQuantile name
  match lens with
  | none => .ok (none, s)
  | some lens =>
    match lensSubPtr s.mem lens .quantile with
    | none => do
      let s ← lensFree s lens
      .ok (none, s)
    | some quantile =>
      .ok (some lens, s.setMem (storeWords s.mem quantile
        [targetQuantile.toNat, originalEstimate.toNat, adjustmentValue.toNat]))

/-- What the caller of an allocator passes besides the name. -/
inductive LensArgs where
  | counter
  | gauge
  | dist
  | histo (buckets : List ℕ)
  | quantile (targetQuantile originalEstimate adjustmentValue : UInt64)

/-- The length of the data of a lens of the type. -/
def LensArgs.dataLen : LensArgs → ℕ
  | .counter => 2 * 8
  | .gauge => 8
  | .dist => sizeofLensDist
  | .histo _ => sizeofLensHisto
  | .quantile .. => sizeofLensQuantile

/-- The arguments are accepted. -/
def LensArgs.ok : LensArgs → Bool
  | .histo buckets => histoBucketsOk buckets
  | _ => true

/-- The function `lens_X_alloc` of a type. -/
def lensTypedAlloc (env : GrowEnv) (s : Arena) (name : CStr) :
    LensArgs → Outcome (Option ℕ × Arena)
  | .counter => lensCounterAlloc env s name
  | .gauge => lensGaugeAlloc env s name
  | .dist => lensDistAlloc env s name
  | .histo buckets => lensHistoAlloc env s name buckets
  | .quantile t e a => lensQuantileAlloc env s name t e a

/-! ### The list of lenses -/

/-- `lens_set_next`: the lens is linked in front of `next`. -/
def lensSetNext (s : Arena) (lens next : ℕ) : Outcome Arena :=
  let s := s.setMem (store64 s.mem (lens + 24) next)
  if next = 0 then .ok s
  else
    match lensPtr s next with
    | none => .error .segv
    | some nextNode => do
      opticsAssert (lensPrev s.mem nextNode = 0)
      match lensPtr s next with
      | none => .error .segv
      | some nextNode => .ok (s.setMem (store64 s.mem (nextNode + 32) (lensOff s.mem lens)))

/-- The first half of `lens_kill`: the successor takes over the predecessor. -/
def lensKillNext (s : Arena) (lens nextOff : ℕ) : Outcome Arena :=
  if nextOff = 0 then .ok s
  else
    match lensPtr s nextOff with
    | none => .error .segv
    | some next => do
      opticsAssert (lensPrev s.mem next = lensOff s.mem lens)
      .ok (s.setMem (store64 s.mem (next + 32) (lensPrev s.mem lens)))

/-- The second half of `lens_kill`: the predecessor takes over the successor. -/
def lensKillPrev (s : Arena) (lens nextOff : ℕ) : Outcome Arena :=
  if lensPrev s.mem lens = 0 then .ok s
  else
    match lensPtr s (lensPrev s.mem lens) with
    | none => .error .segv
    | some prev => do
      opticsAssert (lensNext s.mem prev = lensOff s.mem lens)
      .ok (s.setMem (store64 s.mem (prev + 24) nextOff))

/-- `lens_kill`: the neighbours of the lens are linked to each other. -/
def lensKill (s : Arena) (lens : ℕ) : Outcome Arena := do
  let nextOff := lensNext s.mem lens
  let s ← lensKillNext s lens nextOff
  lensKillPrev s lens nextOff

end Optics.Lenses
