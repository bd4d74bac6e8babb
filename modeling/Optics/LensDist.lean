import Optics.Utils.Random
import Optics.Lib.Sorting

/-! # Distributions

`lens_dist.c`. A slot counts its records and keeps up to 200 of their values, a reservoir of samples
once there are more. A read takes the slot over into the caller's `struct optics_dist`, which may hold
the samples of other lenses already: the two reservoirs are merged, and the percentiles are read off
a sorted copy.

An array that is filled from the front is the list of what it has been filled with. The slot is
locked by the recorders and tested by the reader; the body of a record, the copy and the reset of a
read are functions of their own. -/

namespace Optics.LensDist

open Optics.Base Optics.Lenses Optics.LensSlots Optics.Doubles Optics.Utils.Random Optics.Lib.Sorting

/-- `struct optics_dist`. -/
structure OpticsDist where
  n : UInt64
  p50 : Double
  p90 : Double
  p99 : Double
  max : Double
  samples : List Double

/-- `(struct optics_dist) {0}`. -/
def OpticsDist.zero : OpticsDist := ⟨0, .fin 0, .fin 0, .fin 0, .fin 0, []⟩

theorem zero_ne_of_full {n : UInt64} (h : ¬ n.toNat < opticsDistSamples) : 0 ≠ n := by
  rintro rfl
  exact h (by decide)

section Ops
variable {σ : Type} (fpu : Fpu) (rng : Rng σ)

/-! ### Recording -/

/-- The index that `lens_dist_record` stores at. -/
def recordIndex (n : UInt64) (s : σ) : UInt64 × σ :=
  if h : n.toNat < opticsDistSamples then (n, s) else rng.genRange s 0 n (zero_ne_of_full h)

/-- What `lens_dist_record` does under the lock. -/
def recordBody (dist : LensDistEpoch) (value : Double) (s : σ) : LensDistEpoch × σ :=
  let (i, s) := recordIndex rng dist.n s
  let samples :=
    if h : i.toNat < opticsDistSamples then dist.samples.set i.toNat value h else dist.samples
  let max := if less dist.max value then value else dist.max
  ({ dist with n := dist.n + 1, max := max, samples := samples }, s)

/-- `lens_dist_record`, which waits for the lock. -/
def lensDistRecord (lens : LensData) (epoch : Fin 2) (value : Double) (s : σ) :
    Outcome (Bool × LensData × σ) :=
  match lens with
  | .dist epochs =>
    if (epochs epoch).lock then .error .diverge
    else
      let (dist, s) := recordBody rng (epochs epoch) value s
      .ok (true, .dist (Function.update epochs epoch dist), s)
  | lens => .ok (false, lens, s)

/-! ### Merging -/

/-- `lens_dist_reservoir_len`. -/
def lensDistReservoirLen (len : UInt64) : ℕ := min len.toNat opticsDistSamples

/-- The loop over values that are no samples of more than themselves. -/
def sampleEach : List Double → List Double → UInt64 → σ → Outcome (List Double × σ)
  | [], dst, _, s => .ok (dst, s)
  | v :: rest, dst, dstLen, s => do
    let (index, s) ← rng.draw s 0 dstLen
    sampleEach rest (dst.set index.toNat v) (dstLen + 1) s

/-- The loop over two reservoirs. -/
def sampleRate (rate : Double) : List Double → ℕ → List Double → σ → Outcome (List Double × σ)
  | [], _, dst, s => .ok (dst, s)
  | v :: rest, i, dst, s => do
    let (take, s) ← rng.genProb s rate
    sampleRate rate rest (i + 1) (if take then dst.set i v else dst) s

/-- `lens_dist_merge`, with the reservoir full. -/
def mergeFull (dst : List Double) (dstLen : UInt64) (toMerge : List Double) (toMergeLen : UInt64)
    (s : σ) : Outcome (List Double × ℕ × σ) :=
  if toMergeLen.toNat ≤ opticsDistSamples then do
    let (dst, s) ← sampleEach rng (toMerge.take toMergeLen.toNat) dst dstLen s
    .ok (dst, opticsDistSamples, s)
  else do
    let rate := fpu.div (.fin (doubleOf toMergeLen)) (.fin (doubleOf (toMergeLen + dstLen)))
    let (dst, s) ← sampleRate rng rate (toMerge.take opticsDistSamples) 0 dst s
    .ok (dst, opticsDistSamples, s)

/-- `lens_dist_merge`, with the longer side copied. -/
def mergeInto (dst : List Double) (dstLen : UInt64) (toMerge : List Double) (toMergeLen : UInt64)
    (s : σ) : Outcome (List Double × ℕ × σ) :=
  if toMergeLen = 0 then .ok (dst, lensDistReservoirLen dstLen, s)
  else if dstLen.toNat < opticsDistSamples then
    -- fill up the reservoir
    let toCopy := min (opticsDistSamples - dstLen.toNat) toMergeLen.toNat
    let dst := dst ++ toMerge.take toCopy
    let dstLen := dstLen + .ofNat toCopy
    let toMergeLen := toMergeLen - .ofNat toCopy
    if toMergeLen = 0 then .ok (dst, dstLen.toNat, s)
    else mergeFull fpu rng dst dstLen (toMerge.drop toCopy) toMergeLen s
  else mergeFull fpu rng dst dstLen toMerge toMergeLen s

/-- `lens_dist_merge`: the merged reservoir and its length. -/
def lensDistMerge (lhs : List Double) (lhsLen : UInt64) (rhs : List Double) (rhsLen : UInt64)
    (s : σ) : Outcome (List Double × ℕ × σ) :=
  if rhsLen ≤ lhsLen then
    mergeInto fpu rng (lhs.take (lensDistReservoirLen lhsLen)) lhsLen rhs rhsLen s
  else mergeInto fpu rng (rhs.take (lensDistReservoirLen rhsLen)) rhsLen lhs lhsLen s

/-! ### Reading -/

/-- `lens_dist_value_cmp`: the difference, converted to an `int`. -/
def lensDistValueCmp (lhs rhs : Double) : Outcome ℤ := fpu.toInt (fpu.sub lhs rhs)

/-- `lens_dist_p`. -/
def lensDistP (percentile n : ℕ) : ℕ := n * percentile / 100

/-- `a[i]`. -/
def entry (a : List Double) (i : ℕ) : Outcome Double :=
  match a[i]? with
  | some v => .ok v
  | none => .error .undefined

/-- What a read copies from a slot: the number of records, and the samples. -/
def copySlot (dist : LensDistEpoch) : UInt64 × List Double :=
  (dist.n, dist.samples.toList.take (lensDistReservoirLen dist.n))

/-- The maximum of a slot, merged. -/
def OpticsDist.mergeMax (value : OpticsDist) (max : Double) : OpticsDist :=
  { value with max := if less value.max max then max else value.max }

/-- `dist->max = 0; dist->n = 0;`. -/
def resetSlot (dist : LensDistEpoch) : LensDistEpoch := { dist with max := .fin 0, n := 0 }

/-- `slock_unlock`. -/
def slockUnlock (dist : LensDistEpoch) : LensDistEpoch := { dist with lock := false }

/-- What `lens_dist_read` does with the samples it has copied. -/
def OpticsDist.mergeSamples (value : OpticsDist) (samplesLen : UInt64) (samples : List Double)
    (s : σ) : Outcome (OpticsDist × σ) :=
  if samplesLen = 0 then .ok (value, s)
  else do
    let (result, resultLen, s) ← lensDistMerge fpu rng samples samplesLen value.samples value.n s
    let sorted ← mergeSort (lensDistValueCmp fpu) (result.take resultLen)
    let p50 ← entry sorted (lensDistP 50 resultLen)
    let p90 ← entry sorted (lensDistP 90 resultLen)
    let p99 ← entry sorted (lensDistP 99 resultLen)
    .ok ({ value with n := value.n + samplesLen, p50, p90, p99, samples := result }, s)

/-- `lens_dist_read`. -/
def lensDistRead (lens : LensData) (epoch : Fin 2) (value : OpticsDist) (s : σ) :
    Outcome (OpticsRet × OpticsDist × LensData × σ) :=
  match lens with
  | .dist epochs =>
    let dist := epochs epoch
    if dist.lock then .ok (.busy, value, .dist epochs, s)
    else do
      let lens := LensData.dist (Function.update epochs epoch (slockUnlock (resetSlot dist)))
      let (samplesLen, samples) := copySlot dist
      let (value, s) ← (value.mergeMax dist.max).mergeSamples fpu rng samplesLen samples s
      .ok (.ok, value, lens, s)
  | lens => .ok (.err, value, lens, s)

end Ops

/-! ### Counts -/

theorem toNat_ofNat_small {n : ℕ} (h : n ≤ opticsDistSamples) : (UInt64.ofNat n).toNat = n := by
  rw [UInt64.toNat_ofNat']
  exact Nat.mod_eq_of_lt (h.trans_lt (by decide))

theorem toNat_succ {n : UInt64} (h : n.toNat + 1 < 2 ^ 64) : (n + 1).toNat = n.toNat + 1 := by
  rw [UInt64.toNat_add, UInt64.toNat_one]
  exact Nat.mod_eq_of_lt h

theorem toNat_succ_of_ne_zero {n : UInt64} (h : n + 1 ≠ 0) : (n + 1).toNat = n.toNat + 1 := by
  have hne : (n + 1).toNat ≠ 0 := fun h0 => h (UInt64.toNat_inj.mp h0)
  have hword := n.toNat_lt
  rw [UInt64.toNat_add, UInt64.toNat_one] at hne ⊢
  omega

theorem toNat_succ_of_room {n : UInt64} (h : n.toNat < opticsDistSamples) :
    (n + 1).toNat = n.toNat + 1 :=
  toNat_succ (lt_of_le_of_lt h (by decide))

theorem succ_add_ofNat (n : UInt64) (m : ℕ) : n + 1 + .ofNat m = n + .ofNat (m + 1) := by
  rw [UInt64.ofNat_add, UInt64.add_comm (UInt64.ofNat m), ← UInt64.add_assoc]
  rfl

/-! ### What the calls do -/

section Specs
variable {σ : Type} {fpu : Fpu} {rng : Rng σ}

theorem recordBody_snd (rng : Rng σ) (dist : LensDistEpoch) (value : Double) (s : σ) :
    (recordBody rng dist value s).2 = (recordIndex rng dist.n s).2 := rfl

/-- The value of a record is put into the next cell, or into one that is drawn, if it exists. -/
theorem recordBody_put (rng : Rng σ) (dist : LensDistEpoch) (value : Double) (s : σ) :
    (recordBody rng dist value s).1.samples.toList =
      dist.samples.toList.set (recordIndex rng dist.n s).1.toNat value := by
  unfold recordBody
  dsimp only
  split_ifs with hi
  · exact Vector.toList_set _
  · rw [List.set_eq_of_length_le (by rw [Vector.length_toList]; exact not_lt.mp hi)]

theorem take_set_samples (samples : Vector Double opticsDistSamples) {i : ℕ}
    (h : i < opticsDistSamples) (v : Double) :
    (samples.set i v h).toList.take (i + 1) = samples.toList.take i ++ [v] := by
  rw [Vector.toList_set, List.take_add_one, List.take_set_of_le le_rfl, List.getElem?_set_self]
  · rfl
  · simpa using h

theorem OpticsDist.mergeSamples_max {value value' : OpticsDist} {n : UInt64} {samples : List Double}
    {s s' : σ} (h : value.mergeSamples fpu rng n samples s = .ok (value', s')) :
    value'.max = value.max := by
  unfold OpticsDist.mergeSamples at h
  split_ifs at h with h0
  · cases h
    rfl
  · obtain ⟨⟨result, resultLen, s1⟩, -, h⟩ := Base.bind_eq_ok.mp h
    obtain ⟨sorted, -, h⟩ := Base.bind_eq_ok.mp h
    obtain ⟨p50, -, h⟩ := Base.bind_eq_ok.mp h
    obtain ⟨p90, -, h⟩ := Base.bind_eq_ok.mp h
    obtain ⟨p99, -, h⟩ := Base.bind_eq_ok.mp h
    cases h
    rfl

/-- **A record** into a slot nobody holds. -/
theorem lensDistRecord_spec {epochs : Fin 2 → LensDistEpoch} {epoch : Fin 2}
    (hlock : (epochs epoch).lock = false) (value : Double) (s : σ) :
    lensDistRecord rng (.dist epochs) epoch value s =
      .ok (true, .dist (Function.update epochs epoch (recordBody rng (epochs epoch) value s).1),
        (recordBody rng (epochs epoch) value s).2) := by
  simp [lensDistRecord, hlock]

/-- **A read** of a slot nobody holds: the slot is reset, its maximum and its samples are merged. -/
theorem lensDistRead_spec {epochs : Fin 2 → LensDistEpoch} {epoch : Fin 2}
    (hlock : (epochs epoch).lock = false) (value : OpticsDist) (s : σ) :
    lensDistRead fpu rng (.dist epochs) epoch value s = (do
      let (value, s) ← (value.mergeMax (epochs epoch).max).mergeSamples fpu rng
        (copySlot (epochs epoch)).1 (copySlot (epochs epoch)).2 s
      .ok (.ok, value, .dist (Function.update epochs epoch (slockUnlock (resetSlot (epochs epoch)))),
        s)) := by
  simp [lensDistRead, hlock]

end Specs

end Optics.LensDist
