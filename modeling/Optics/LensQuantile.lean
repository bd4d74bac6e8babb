import Optics.Utils.Random

/-! # Quantiles

`lens_quantile.c`. An update moves the estimate of the lens by a random step and counts; a read takes
the count of the epoch and then decides whose estimate the caller keeps. -/

namespace Optics.LensQuantile

open Optics.Base Optics.LensSlots Optics.Doubles Optics.Utils.Random

/-- `struct optics_quantile`. -/
structure OpticsQuantile where
  quantile : Double
  sample : Double
  sampleCount : UInt64
  count : UInt64

/-- `(struct optics_quantile) {0}`. -/
def OpticsQuantile.zero : OpticsQuantile := ⟨.fin 0, .fin 0, 0, 0⟩

section Ops
variable {σ : Type} (fpu : Fpu) (rng : Rng σ)

/-- `calculate_quantile`. -/
def calculateQuantile (quantile : LensQuantile) : Double :=
  let adjustment := fpu.mul (.fin (doubleOfInt64 quantile.multiplier)) quantile.adjustmentValue
  fpu.add quantile.originalEstimate adjustment

/-- `lens_quantile_update`. -/
def lensQuantileUpdate (lens : LensData) (epoch : Fin 2) (value : Double) (s : σ) :
    Outcome (Bool × LensData × σ) :=
  match lens with
  | .quantile quantile => do
    let currentEstimate := calculateQuantile fpu quantile
    let (probabilityCheck, s) ← rng.genProb s quantile.targetQuantile
    let multiplier :=
      if less value currentEstimate then
        if !probabilityCheck then quantile.multiplier - 1 else quantile.multiplier
      else if probabilityCheck then quantile.multiplier + 1 else quantile.multiplier
    .ok (true, .quantile { quantile with
      multiplier := multiplier
      count := Function.update quantile.count epoch (quantile.count epoch + 1) }, s)
  | lens => .ok (false, lens, s)

/-- Whether `lens_quantile_read` prefers the sample of the lens to the caller's. -/
def pickSample (quantile : LensQuantile) (count : UInt64) (sample : Double) (value : OpticsQuantile)
    (s : σ) : Outcome (Bool × σ) := do
  let delta :=
    if value.sampleCount < count then count - value.sampleCount else value.sampleCount - count
  let total := count + value.sampleCount
  let (large, s) ← rng.genProb s (fpu.div (.fin (doubleOf delta)) (.fin (doubleOf total)))
  if large then .ok (decide (value.sampleCount ≤ count), s)
  else if less value.sample sample then rng.genProb s quantile.targetQuantile
  else rng.genProb s (fpu.sub (.fin 1) quantile.targetQuantile)

/-- `lens_quantile_read`. -/
def lensQuantileRead (lens : LensData) (epoch : Fin 2) (value : OpticsQuantile) (s : σ) :
    Outcome (OpticsRet × OpticsQuantile × LensData × σ) :=
  match lens with
  | .quantile quantile =>
    let sample := calculateQuantile fpu quantile
    let count := quantile.count epoch
    let lens := LensData.quantile { quantile with count := Function.update quantile.count epoch 0 }
    if same value.quantile (.fin 0) then
      .ok (.ok, ⟨quantile.targetQuantile, sample, count, count⟩, lens, s)
    else if same value.quantile quantile.targetQuantile = false then .ok (.err, value, lens, s)
    else do
      let (pick, s) ← pickSample fpu rng quantile count sample value s
      let value := if pick then { value with sample := sample, sampleCount := count } else value
      .ok (.ok, { value with count := value.count + count }, lens, s)
  | lens => .ok (.err, value, lens, s)

theorem pickSample_returns (fpu : Fpu) {rng : Rng σ}
    (hprob : ∀ s p, ∃ r, rng.genProb s p = .ok r) (quantile : LensQuantile) (count : UInt64)
    (sample : Double) (value : OpticsQuantile) (s : σ) :
    ∃ r, pickSample fpu rng quantile count sample value s = .ok r := by
  unfold pickSample
  dsimp only
  generalize fpu.div _ _ = rate
  obtain ⟨⟨large, s1⟩, hlarge⟩ := hprob s rate
  rw [hlarge, ok_bind]
  dsimp only
  split_ifs
  · exact ⟨_, rfl⟩
  · exact hprob _ _
  · exact hprob _ _

end Ops

end Optics.LensQuantile
