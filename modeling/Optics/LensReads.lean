import Optics.LensDist
import Optics.LensQuantile

/-! # Reading a lens of any type

The value of a poll record and the five read functions behind it. A read that fails should leave the
lens and the record as they are (`ReadAtomic`). Four of the functions do; `lens_quantile_read` has
exchanged the count of the epoch with 0 when it finds that the record is for another quantile
(`readAtomic_iff`). -/

namespace Optics.LensReads

open Optics.Base Optics.Lenses Optics.LensSlots Optics.Doubles Optics.Utils.Random
open Optics.LensDist Optics.LensQuantile

/-- `union optics_poll_value`, with the type of the record. -/
inductive OpticsPollValue where
  | counter (value : UInt64)
  | gauge (value : UInt64)
  | dist (value : OpticsDist)
  | histo (value : OpticsHisto)
  | quantile (value : OpticsQuantile)

/-- The zeroed value of a record. -/
def OpticsPollValue.zero : LensType → OpticsPollValue
  | .counter => .counter 0
  | .gauge => .gauge 0
  | .dist => .dist OpticsDist.zero
  | .histo => .histo ⟨[], 0, 0, fun _ => 0⟩
  | .quantile => .quantile OpticsQuantile.zero

/-- `poll->type`. -/
def OpticsPollValue.type : OpticsPollValue → LensType
  | .counter _ => .counter
  | .gauge _ => .gauge
  | .dist _ => .dist
  | .histo _ => .histo
  | .quantile _ => .quantile

theorem OpticsPollValue.type_zero (t : LensType) : (OpticsPollValue.zero t).type = t := by
  cases t <;> rfl

section Read
variable {σ : Type} (fpu : Fpu) (rng : Rng σ)

/-- The call of `optics_X_read` for a record of type `X`. -/
def readValue (value : OpticsPollValue) (lens : LensData) (epoch : Fin 2) (s : σ) :
    Outcome (OpticsRet × OpticsPollValue × LensData × σ) :=
  match value with
  | .counter v =>
    let (ret, v, lens) := lensCounterRead lens epoch v
    .ok (ret, .counter v, lens, s)
  | .gauge v =>
    let (ret, v, lens) := lensGaugeRead lens v
    .ok (ret, .gauge v, lens, s)
  | .dist v => do
    let (ret, v, lens, s) ← lensDistRead fpu rng lens epoch v s
    .ok (ret, .dist v, lens, s)
  | .histo v =>
    let (ret, v, lens) := lensHistoRead lens epoch v
    .ok (ret, .histo v, lens, s)
  | .quantile v => do
    let (ret, v, lens, s) ← lensQuantileRead fpu rng lens epoch v s
    .ok (ret, .quantile v, lens, s)

/-- A read that fails changes nothing. -/
def ReadAtomic (value : OpticsPollValue) (lens : LensData) (epoch : Fin 2) (s : σ) : Prop :=
  ∀ ret value' lens' s', readValue fpu rng value lens epoch s = .ok (ret, value', lens', s') →
    ret ≠ .ok → value' = value ∧ lens' = lens

end Read

/-- A quantile lens that has counted is read for a record of another quantile. -/
def LosesCount : OpticsPollValue → LensData → Fin 2 → Prop
  | .quantile value, .quantile quantile, epoch =>
    same value.quantile (.fin 0) = false ∧
      same value.quantile quantile.targetQuantile = false ∧ quantile.count epoch ≠ 0
  | _, _, _ => False

section Atomic
variable {σ : Type} {fpu : Fpu} {rng : Rng σ}

/-! ### One read function after the other -/

theorem lensCounterRead_atomic {lens lens' : LensData} {epoch : Fin 2} {v v' : UInt64}
    {ret : OpticsRet} (h : lensCounterRead lens epoch v = (ret, v', lens')) (hret : ret ≠ .ok) :
    v' = v ∧ lens' = lens := by
  cases lens with
  | counter value =>
    cases h
    exact absurd rfl hret
  | _ =>
    cases h
    exact ⟨rfl, rfl⟩

theorem lensGaugeRead_atomic {lens lens' : LensData} {v v' : UInt64} {ret : OpticsRet}
    (h : lensGaugeRead lens v = (ret, v', lens')) (hret : ret ≠ .ok) : v' = v ∧ lens' = lens := by
  cases lens with
  | gauge value =>
    cases h
    exact absurd rfl hret
  | _ =>
    cases h
    exact ⟨rfl, rfl⟩

theorem lensHistoRead_atomic {lens lens' : LensData} {epoch : Fin 2} {v v' : OpticsHisto}
    {ret : OpticsRet} (h : lensHistoRead lens epoch v = (ret, v', lens')) (hret : ret ≠ .ok) :
    v' = v ∧ lens' = lens := by
  cases lens with
  | histo epochs buckets =>
    unfold lensHistoRead at h
    dsimp only at h
    split_ifs at h with h1 h2
    · cases h
      exact absurd rfl hret
    · cases h
      exact ⟨rfl, rfl⟩
    · cases h
      exact absurd rfl hret
  | _ =>
    cases h
    exact ⟨rfl, rfl⟩

theorem lensDistRead_atomic {lens lens' : LensData} {epoch : Fin 2} {v v' : OpticsDist}
    {ret : OpticsRet} {s s' : σ} (h : lensDistRead fpu rng lens epoch v s = .ok (ret, v', lens', s'))
    (hret : ret ≠ .ok) : v' = v ∧ lens' = lens := by
  cases lens with
  | dist epochs =>
    unfold lensDistRead at h
    dsimp only at h
    split_ifs at h with h1
    · cases h
      exact ⟨rfl, rfl⟩
    · obtain ⟨⟨v1, s1⟩, -, h⟩ := Base.bind_eq_ok.mp h
      cases h
      exact absurd rfl hret
  | _ =>
    cases h
    exact ⟨rfl, rfl⟩

/-- **The read of a quantile that fails** takes the count when the record is for another quantile. -/
theorem lensQuantileRead_fails {lens lens' : LensData} {epoch : Fin 2} {v v' : OpticsQuantile}
    {ret : OpticsRet} {s s' : σ}
    (h : lensQuantileRead fpu rng lens epoch v s = .ok (ret, v', lens', s')) (hret : ret ≠ .ok) :
    v' = v ∧ (lens' = lens ∨ ∃ q, lens = .quantile q ∧ same v.quantile (.fin 0) = false ∧
      same v.quantile q.targetQuantile = false ∧
      lens' = .quantile { q with count := Function.update q.count epoch 0 }) := by
  cases lens with
  | quantile q =>
    unfold lensQuantileRead at h
    dsimp only at h
    split_ifs at h with h1 h2
    · cases h
      exact absurd rfl hret
    · cases h
      exact ⟨rfl, .inr ⟨q, rfl, by simpa using h1, h2, rfl⟩⟩
    · obtain ⟨⟨pick, s1⟩, -, h⟩ := Base.bind_eq_ok.mp h
      cases h
      exact absurd rfl hret
  | _ =>
    cases h
    exact ⟨rfl, .inl rfl⟩

theorem taken_eq_self {q : LensQuantile} {epoch : Fin 2} :
    LensData.quantile { q with count := Function.update q.count epoch 0 } = .quantile q ↔
      q.count epoch = 0 := by
  constructor
  · intro h
    have hcount : Function.update q.count epoch 0 epoch = q.count epoch :=
      congrFun (congrArg LensQuantile.count (LensData.quantile.inj h)) epoch
    rwa [Function.update_self, eq_comm] at hcount
  · intro h
    rw [← h, Function.update_eq_self]

/-! ### All of them -/

theorem LosesCount.not_readAtomic {value : OpticsPollValue} {lens : LensData} {epoch : Fin 2}
    (h : LosesCount value lens epoch) (s : σ) : ¬ ReadAtomic fpu rng value lens epoch s := by
  intro hat
  cases value with
  | quantile v =>
    cases lens with
    | quantile q =>
      obtain ⟨h0, ht, hc⟩ := h
      have hrun : readValue fpu rng (.quantile v) (.quantile q) epoch s = .ok (.err, .quantile v,
          .quantile { q with count := Function.update q.count epoch 0 }, s) := by
        simp [readValue, lensQuantileRead, h0, ht]
      exact hc (taken_eq_self.mp (hat _ _ _ _ hrun (by decide)).2)
    | _ => exact h
  | _ => exact h

/-- **A failed read changes nothing**, unless it takes the count of a quantile lens. -/
theorem readAtomic_iff (value : OpticsPollValue) (lens : LensData) (epoch : Fin 2) (s : σ) :
    ReadAtomic fpu rng value lens epoch s ↔ ¬ LosesCount value lens epoch := by
  constructor
  · exact fun h hlost => hlost.not_readAtomic s h
  · intro hlost ret value' lens' s' h hret
    cases value with
    | counter v =>
      cases h
      obtain ⟨h1, h2⟩ := lensCounterRead_atomic rfl hret
      exact ⟨congrArg _ h1, h2⟩
    | gauge v =>
      cases h
      obtain ⟨h1, h2⟩ := lensGaugeRead_atomic rfl hret
      exact ⟨congrArg _ h1, h2⟩
    | histo v =>
      cases h
      obtain ⟨h1, h2⟩ := lensHistoRead_atomic rfl hret
      exact ⟨congrArg _ h1, h2⟩
    | dist v =>
      obtain ⟨⟨ret1, v1, lens1, s1⟩, h1, h⟩ := Base.bind_eq_ok.mp h
      cases h
      obtain ⟨hv, hl⟩ := lensDistRead_atomic h1 hret
      exact ⟨congrArg _ hv, hl⟩
    | quantile v =>
      obtain ⟨⟨ret1, v1, lens1, s1⟩, h1, h⟩ := Base.bind_eq_ok.mp h
      cases h
      obtain ⟨hv, hl | ⟨q, rfl, h0, ht, rfl⟩⟩ := lensQuantileRead_fails h1 hret
      · exact ⟨congrArg _ hv, hl⟩
      · have hc : q.count epoch = 0 := not_not.mp fun hc => hlost ⟨h0, ht, hc⟩
        exact ⟨congrArg _ hv, taken_eq_self.mpr hc⟩

end Atomic

/-- A lens for the median that has counted three updates, read for a record of the 90th percentile. -/
theorem readAtomic_fails : ¬ ReadAtomic rational (xorshift rational)
    (.quantile ⟨.fin (9 / 10), .fin 7, 5, 5⟩) (.quantile ⟨.fin (1 / 2), .fin 4, .fin 1, 0, fun _ => 3⟩)
    0 1 := by
  have h : LosesCount (.quantile ⟨.fin (9 / 10), .fin 7, 5, 5⟩)
      (.quantile ⟨.fin (1 / 2), .fin 4, .fin 1, 0, fun _ => 3⟩) 0 :=
    ⟨by norm_num [same], by norm_num [same], by decide⟩
  exact h.not_readAtomic 1

end Optics.LensReads
