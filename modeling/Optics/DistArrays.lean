import Optics.DistMerge
import Optics.Lib.Arrays

/-! # Merging arrays

`lens_dist_merge` with the arrays of the source, of 200 cells each and uninitialised at first: every
load and every store has to be inside, a load where something has been stored. `mergeArrays` does on
arrays what `lensDistMerge` does on the lists of samples they hold (`mergeArrays_spec`). -/

namespace Optics.DistArrays

open Optics.Base Optics.Lenses Optics.LensSlots Optics.Doubles Optics.Utils.Random Optics.LensDist
open Optics.DistMerge Optics.Lib.Arrays

/-- `double samples[optics_dist_samples]`. -/
abbrev Samples := Cells Double opticsDistSamples

/-- An access outside of an array, or to a cell that has no value, is not defined. -/
def defined {α : Type} : Option α → Outcome α
  | some a => .ok a
  | none => .error .undefined

/-- `dst[i] = to_merge[j]`. -/
def move (toMerge : Samples) (j : ℕ) (dst : Samples) (i : ℕ) : Outcome Samples := do
  let v ← defined (load toMerge j)
  defined (store dst i v)

section Ops
variable {σ : Type} (fpu : Fpu) (rng : Rng σ)

/-- The loop over values that are no samples of more than themselves, `todo` of them from the one at
`start + i` on. -/
def eachLoop (toMerge : Samples) (start : ℕ) : ℕ → ℕ → Samples → UInt64 → σ → Outcome (Samples × σ)
  | 0, _, dst, _, s => .ok (dst, s)
  | todo + 1, i, dst, dstLen, s => do
    let (index, s) ← rng.draw s 0 dstLen
    let dst ← (if index.toNat < opticsDistSamples then move toMerge (start + i) dst index.toNat
      else .ok dst)
    eachLoop toMerge start todo (i + 1) dst (dstLen + 1) s

/-- The loop over two reservoirs, for `todo` indices from `i` on. -/
def rateLoop (rate : Double) (toMerge : Samples) (start : ℕ) : ℕ → ℕ → Samples → σ →
    Outcome (Samples × σ)
  | 0, _, dst, s => .ok (dst, s)
  | todo + 1, i, dst, s => do
    let (take, s) ← rng.genProb s rate
    let dst ← (if take then move toMerge (start + i) dst i else .ok dst)
    rateLoop rate toMerge start todo (i + 1) dst s

/-- `lens_dist_merge`, with the reservoir full; `start` is how far `to_merge` has been advanced. -/
def mergeFullArrays (dst : Samples) (dstLen : UInt64) (toMerge : Samples) (start : ℕ)
    (toMergeLen : UInt64) (s : σ) : Outcome (Samples × ℕ × σ) :=
  if toMergeLen.toNat ≤ opticsDistSamples then do
    let (dst, s) ← eachLoop rng toMerge start toMergeLen.toNat 0 dst dstLen s
    .ok (dst, opticsDistSamples, s)
  else do
    let rate := fpu.div (.fin (doubleOf toMergeLen)) (.fin (doubleOf (toMergeLen + dstLen)))
    let (dst, s) ← rateLoop rng rate toMerge start opticsDistSamples 0 dst s
    .ok (dst, opticsDistSamples, s)

/-- `lens_dist_merge`, with the longer side copied. -/
def mergeIntoArrays (dst : Samples) (dstLen : UInt64) (toMerge : Samples) (toMergeLen : UInt64)
    (s : σ) : Outcome (Samples × ℕ × σ) :=
  if toMergeLen = 0 then .ok (dst, lensDistReservoirLen dstLen, s)
  else if dstLen.toNat < opticsDistSamples then do
    let toCopy := min (opticsDistSamples - dstLen.toNat) toMergeLen.toNat
    let dst ← defined (copy dst dstLen.toNat toMerge 0 toCopy)
    let dstLen := dstLen + .ofNat toCopy
    let toMergeLen := toMergeLen - .ofNat toCopy
    if toMergeLen = 0 then .ok (dst, dstLen.toNat, s)
    else mergeFullArrays fpu rng dst dstLen toMerge toCopy toMergeLen s
  else mergeFullArrays fpu rng dst dstLen toMerge 0 toMergeLen s

/-- `lens_dist_merge`: the array it fills, and the length it returns. -/
def mergeArrays (dst lhs : Samples) (lhsLen : UInt64) (rhs : Samples) (rhsLen : UInt64) (s : σ) :
    Outcome (Samples × ℕ × σ) :=
  if rhsLen ≤ lhsLen then do
    let dst ← defined (copy dst 0 lhs 0 (lensDistReservoirLen lhsLen))
    mergeIntoArrays fpu rng dst lhsLen rhs rhsLen s
  else do
    let dst ← defined (copy dst 0 rhs 0 (lensDistReservoirLen rhsLen))
    mergeIntoArrays fpu rng dst rhsLen lhs lhsLen s

end Ops

section Specs
variable {σ : Type} {fpu : Fpu} {rng : Rng σ} {toMerge : Samples} {l : List Double} {start : ℕ}

/-! ### The loops -/

theorem drop_take_succ {i todo : ℕ} (h : i < l.length) :
    (l.drop i).take (todo + 1) = l[i] :: (l.drop (i + 1)).take todo := by
  rw [List.drop_eq_getElem_cons h, List.take_succ_cons]

theorem move_spec (hl : Holds toMerge l) {dst : Samples} {d : List Double} (hdst : Holds dst d)
    {j i : ℕ} (hj : j < l.length) (hi : i < d.length) :
    ∃ dst', move toMerge j dst i = .ok dst' ∧ Holds dst' (d.set i l[j]) := by
  obtain ⟨dst', hstore, hdst'⟩ := hdst.store hi l[j]
  refine ⟨dst', ?_, hdst'⟩
  rw [move, hl j hj, defined, ok_bind, hstore, defined]

theorem eachLoop_spec (hl : Holds toMerge l) (start : ℕ) : ∀ (todo i : ℕ) {dst : Samples}
    {d r : List Double} {n : UInt64} {s s' : σ}, Holds dst d → d.length = opticsDistSamples →
      start + i + todo ≤ l.length →
      sampleEach rng ((l.drop (start + i)).take todo) d n s = .ok (r, s') →
        ∃ dst', eachLoop rng toMerge start todo i dst n s = .ok (dst', s') ∧ Holds dst' r
  | 0, i, dst, d, r, n, s, s', hdst, _, _, h => by
    rw [List.take_zero] at h
    cases h
    exact ⟨dst, rfl, hdst⟩
  | todo + 1, i, dst, d, r, n, s, s', hdst, hd, hle, h => by
    rw [drop_take_succ (by omega), sampleEach] at h
    obtain ⟨⟨index, s1⟩, hdraw, h⟩ := bind_eq_ok.mp h
    obtain ⟨dst1, hmove, hdst1⟩ : ∃ dst1,
        (if index.toNat < opticsDistSamples then move toMerge (start + i) dst index.toNat
        else .ok dst) = .ok dst1 ∧ Holds dst1 (d.set index.toNat l[start + i]) := by
      split_ifs with hindex
      · exact move_spec hl hdst _ (hd.symm ▸ hindex)
      · rw [List.set_eq_of_length_le (by omega)]
        exact ⟨dst, rfl, hdst⟩
    obtain ⟨dst', hloop, hdst'⟩ := eachLoop_spec hl start todo (i + 1) hdst1
      (by rw [List.length_set, hd]) (by omega) h
    refine ⟨dst', ?_, hdst'⟩
    rw [eachLoop, hdraw, ok_bind]
    dsimp only
    rw [hmove, ok_bind]
    exact hloop

theorem rateLoop_spec {rate : Double} (hl : Holds toMerge l) (start : ℕ) : ∀ (todo i : ℕ) {dst : Samples}
    {d r : List Double} {s s' : σ}, Holds dst d → i + todo ≤ d.length → start + i + todo ≤ l.length →
      sampleRate rng rate ((l.drop (start + i)).take todo) i d s = .ok (r, s') →
        ∃ dst', rateLoop rng rate toMerge start todo i dst s = .ok (dst', s') ∧ Holds dst' r
  | 0, i, dst, d, r, s, s', hdst, _, _, h => by
    rw [List.take_zero] at h
    cases h
    exact ⟨dst, rfl, hdst⟩
  | todo + 1, i, dst, d, r, s, s', hdst, hd, hle, h => by
    rw [drop_take_succ (by omega), sampleRate] at h
    obtain ⟨⟨take, s1⟩, hdraw, h⟩ := bind_eq_ok.mp h
    obtain ⟨dst1, hmove, hdst1⟩ : ∃ dst1,
        (if take then move toMerge (start + i) dst i else .ok dst) = .ok dst1 ∧
          Holds dst1 (if take then d.set i l[start + i] else d) := by
      split_ifs
      · exact move_spec hl hdst _ (by omega)
      · exact ⟨dst, rfl, hdst⟩
    have hlen : (if take then d.set i l[start + i] else d).length = d.length := by
      split_ifs
      · exact List.length_set ..
      · rfl
    obtain ⟨dst', hloop, hdst'⟩ := rateLoop_spec hl start todo (i + 1) hdst1 (by omega) (by omega) h
    refine ⟨dst', ?_, hdst'⟩
    rw [rateLoop, hdraw, ok_bind]
    dsimp only
    rw [hmove, ok_bind]
    exact hloop

/-! ### The merge -/

theorem mergeFullArrays_spec {dst : Samples} {d r : List Double} {n m : UInt64} {k : ℕ} {s s' : σ}
    (hl : Holds toMerge l) (hdst : Holds dst d) (hd : d.length = opticsDistSamples)
    (hle : start + lensDistReservoirLen m ≤ l.length)
    (h : mergeFull fpu rng d n (l.drop start) m s = .ok (r, k, s')) :
    ∃ dst', mergeFullArrays fpu rng dst n toMerge start m s = .ok (dst', k, s') ∧ Holds dst' r := by
  unfold lensDistReservoirLen at hle
  unfold mergeFull at h
  unfold mergeFullArrays
  split_ifs at h ⊢ with hm
  · obtain ⟨⟨r', s1⟩, heach, h⟩ := bind_eq_ok.mp h
    cases h
    obtain ⟨dst', hloop, hdst'⟩ := eachLoop_spec hl start m.toNat 0 hdst hd (by omega) heach
    rw [hloop]
    exact ⟨dst', rfl, hdst'⟩
  · obtain ⟨⟨r', s1⟩, hrate, h⟩ := bind_eq_ok.mp h
    cases h
    obtain ⟨dst', hloop, hdst'⟩ := rateLoop_spec hl start opticsDistSamples 0 hdst (by omega) (by omega)
      hrate
    dsimp only
    rw [hloop]
    exact ⟨dst', rfl, hdst'⟩

theorem mergeIntoArrays_spec {dst : Samples} {d r : List Double} {n m : UInt64} {k : ℕ} {s s' : σ}
    (hl : Holds toMerge l) (hdst : Holds dst d) (hd : d.length = lensDistReservoirLen n)
    (hm : l.length = lensDistReservoirLen m) (hle : m.toNat ≤ n.toNat)
    (h : mergeInto fpu rng d n l m s = .ok (r, k, s')) :
    ∃ dst', mergeIntoArrays fpu rng dst n toMerge m s = .ok (dst', k, s') ∧ Holds dst' r := by
  have hN : opticsDistSamples = 200 := rfl
  unfold lensDistReservoirLen at hd hm
  unfold mergeInto at h
  unfold mergeIntoArrays
  split_ifs at h ⊢ with h0 hlt
  · cases h
    exact ⟨dst, rfl, hdst⟩
  · generalize hc : min (opticsDistSamples - n.toNat) m.toNat = c at h ⊢
    obtain ⟨-, hsub, hadd⟩ := fill_toNat hc
    have hdn : d.length = n.toNat := by omega
    obtain ⟨dst1, hcopy, hdst1⟩ := hdst.copy hl 0 c (by omega) (by omega)
    rw [hdn] at hcopy
    rw [List.drop_zero] at hdst1
    dsimp only at h ⊢
    rw [hcopy, defined, ok_bind]
    split_ifs at h ⊢ with hrest
    · cases h
      exact ⟨dst1, rfl, hdst1⟩
    · have hmc : m.toNat - c ≠ 0 := fun hz => hrest (UInt64.toNat_inj.mp (hsub.trans hz))
      have hfull : (d ++ l.take c).length = opticsDistSamples := by
        rw [List.length_append, List.length_take]
        omega
      exact mergeFullArrays_spec hl hdst1 hfull (by rw [lensDistReservoirLen, hsub]; omega) h
  · exact mergeFullArrays_spec hl hdst (by omega)
      (by rw [Nat.zero_add]; exact hm.ge) (by rwa [List.drop_zero])

/-- **The merge of two arrays** is the merge of what they hold: every access is defined. -/
theorem mergeArrays_spec {dst lhs rhs : Samples} {l l' r : List Double} {n m : UInt64} {k : ℕ}
    {s s' : σ} (hlhs : Holds lhs l) (hrhs : Holds rhs l') (hl : l.length = lensDistReservoirLen n)
    (hl' : l'.length = lensDistReservoirLen m)
    (h : lensDistMerge fpu rng l n l' m s = .ok (r, k, s')) :
    ∃ dst', mergeArrays fpu rng dst lhs n rhs m s = .ok (dst', k, s') ∧ Holds dst' r := by
  have hcopy {src : Samples} {l : List Double} {n : UInt64} (hsrc : Holds src l)
      (hl : l.length = lensDistReservoirLen n) :
      ∃ dst', copy dst 0 src 0 (lensDistReservoirLen n) = some dst' ∧ Holds dst' l := by
    obtain ⟨dst', hcopy, hdst'⟩ := (holds_nil dst).copy hsrc 0
      (lensDistReservoirLen n) (by omega) (by rw [← hl]; simpa using hsrc.length_le)
    rw [List.drop_zero, ← hl, List.take_length, List.nil_append] at hdst'
    exact ⟨dst', hcopy, hdst'⟩
  unfold lensDistMerge at h
  unfold mergeArrays
  split_ifs at h ⊢ with hle
  · obtain ⟨dst', hc, hdst'⟩ := hcopy hlhs hl
    rw [← hl, List.take_length] at h
    rw [hc, defined, ok_bind]
    exact mergeIntoArrays_spec hrhs hdst' hl hl' (UInt64.le_iff_toNat_le.mp hle) h
  · obtain ⟨dst', hc, hdst'⟩ := hcopy hrhs hl'
    rw [← hl', List.take_length] at h
    have hlt := mt UInt64.le_iff_toNat_le.mpr hle
    rw [hc, defined, ok_bind]
    exact mergeIntoArrays_spec hlhs hdst' hl' hl (by omega) h

end Specs

end Optics.DistArrays
