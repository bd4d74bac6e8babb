import Optics.LensDist

/-! # Rounds of records and reads

Values are recorded into a family of lenses, in any order, and the lenses are read one after the
other into one record that starts out zeroed: a round. -/

namespace Optics.DistRounds

open Optics.Base Optics.Lenses Optics.LensSlots Optics.Doubles Optics.Utils.Random Optics.LensDist

/-- What is recorded, and the order in which the lenses are read. -/
structure Round (ι : Type) where
  records : List (ι × ℚ)
  reads : List ι

section Model
variable {ι σ : Type} [DecidableEq ι] (fpu : Fpu) (rng : Rng σ) (epoch : Fin 2)

/-- The records of a round. -/
def runRecords : List (ι × ℚ) → (ι → LensData) → σ → Outcome ((ι → LensData) × σ)
  | [], lenses, s => .ok (lenses, s)
  | (i, v) :: rest, lenses, s => do
    let (_, lens, s) ← lensDistRecord rng (lenses i) epoch (.fin v) s
    runRecords rest (Function.update lenses i lens) s

/-- The reads of a round, and what they return. -/
def runReads : List ι → OpticsDist → (ι → LensData) → σ →
    Outcome (List OpticsRet × OpticsDist × (ι → LensData) × σ)
  | [], value, lenses, s => .ok ([], value, lenses, s)
  | i :: rest, value, lenses, s => do
    let (ret, value, lens, s) ← lensDistRead fpu rng (lenses i) epoch value s
    let (rets, value, lenses, s) ← runReads rest value (Function.update lenses i lens) s
    .ok (ret :: rets, value, lenses, s)

/-- A round. -/
def runRound (r : Round ι) (lenses : ι → LensData) (s : σ) :
    Outcome (List OpticsRet × OpticsDist × (ι → LensData) × σ) := do
  let (lenses, s) ← runRecords rng epoch r.records lenses s
  runReads fpu rng epoch r.reads OpticsDist.zero lenses s

/-- One round after the other in the same slots. -/
def runRounds : List (Round ι) → (ι → LensData) → σ →
    Outcome (List (List OpticsRet × OpticsDist) × (ι → LensData) × σ)
  | [], lenses, s => .ok ([], lenses, s)
  | r :: rest, lenses, s => do
    let (rets, value, lenses, s) ← runRound fpu rng epoch r lenses s
    let (results, lenses, s) ← runRounds rest lenses s
    .ok ((rets, value) :: results, lenses, s)

end Model

section Law
variable {ι : Type}

/-- The round records something, and every lens that is recorded into is read. -/
structure Round.Complete (r : Round ι) : Prop where
  nonempty : r.records ≠ []
  covered : ∀ x ∈ r.records, x.1 ∈ r.reads

/-- The values of a round. -/
def Round.values (r : Round ι) : Set ℚ := {v | ∃ i, (i, v) ∈ r.records}

end Law

section Values
variable {ι : Type} [DecidableEq ι]

theorem forall_update {α β : Type} {P : α → β → Prop} {f : ι → α} {g : ι → β}
    (h : ∀ j, P (f j) (g j)) (i : ι) {a : α} {b : β} (hi : P a b) (j : ι) :
    P (Function.update f i a j) (Function.update g i b j) := by
  by_cases hj : j = i
  · subst hj
    rw [Function.update_self, Function.update_self]
    exact hi
  · rw [Function.update_of_ne hj, Function.update_of_ne hj]
    exact h j

/-- The values of a lens among the records. -/
def valuesOf (i : ι) (records : List (ι × ℚ)) : List ℚ :=
  (records.filter fun x => x.1 = i).map Prod.snd

theorem mem_valuesOf {i : ι} {v : ℚ} {records : List (ι × ℚ)} :
    v ∈ valuesOf i records ↔ (i, v) ∈ records := by
  constructor
  · intro h
    obtain ⟨⟨j, w⟩, hx, rfl⟩ := List.mem_map.mp h
    obtain ⟨hmem, hj⟩ := List.mem_filter.mp hx
    have hj : j = i := of_decide_eq_true hj
    exact hj ▸ hmem
  · exact fun h => List.mem_map.mpr ⟨(i, v), List.mem_filter.mpr ⟨h, decide_eq_true rfl⟩, rfl⟩

theorem valuesOf_cons (i j : ι) (v : ℚ) (records : List (ι × ℚ)) :
    valuesOf i ((j, v) :: records) =
      if j = i then v :: valuesOf i records else valuesOf i records := by
  unfold valuesOf
  by_cases h : j = i
  · simp [h]
  · simp [h]

end Values

/-- The data of a lens just allocated. -/
def freshDist : LensData :=
  .dist fun _ => ⟨false, 0, .fin 0, Vector.replicate opticsDistSamples (.fin 0)⟩

end Optics.DistRounds
