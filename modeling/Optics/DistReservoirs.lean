import Optics.DistArrays
import Optics.DistRounds
import Optics.QuantileDraws

/-! # Reservoirs hold what was recorded

Distributions are recorded into, and their slots are read into one record, in any order and any
number of times. A slot holds samples of what it has recorded since its last reset, and the record
samples of all the slots that have been read into it, none twice; as long as there are less than
`2^64` records, which is where the numbers of both overflow.

* `HasRecorded.record`, `Collected.read`: a record and a read keep that;
* `run_spec`: so does every run, and it returns;
* `reservoirs`: all runs, and all merges of two arrays. -/

namespace Optics.DistReservoirs

open Optics.Base Optics.Lenses Optics.LensSlots Optics.Doubles Optics.Utils.Random Optics.LensDist
open Optics.DistMerge Optics.DistArrays Optics.DistRounds Optics.QuantileDraws Optics.Lib.Arrays

/-! ### Slots -/

/-- A slot nobody holds, with samples of what it has recorded. -/
structure HasRecorded (dist : LensDistEpoch) (values : List Double) : Prop where
  lock : dist.lock = false
  n : dist.n.toNat = values.length
  samples : (dist.samples.toList.take (lensDistReservoirLen dist.n)).Subperm values
  all : values.length ≤ opticsDistSamples → dist.samples.toList.take values.length = values

section Slots
variable {σ : Type} {rng : Rng σ} {dist : LensDistEpoch} {values : List Double}

theorem hasRecorded_nil (hlock : dist.lock = false) (hn : dist.n = 0) : HasRecorded dist [] where
  lock := hlock
  n := by rw [hn]; rfl
  samples := by
    rw [hn]
    exact List.nil_subperm
  all _ := List.take_zero

/-- **A record** adds a value to those recorded. -/
theorem HasRecorded.record (h : HasRecorded dist values) (hlen : values.length + 1 < 2 ^ 64)
    (v : Double) (s : σ) : HasRecorded (recordBody rng dist v s).1 (values ++ [v]) := by
  have hcount : (values ++ [v]).length = values.length + 1 := by
    rw [List.length_append, List.length_singleton]
  have hn : (recordBody rng dist v s).1.n.toNat = values.length + 1 := by
    change (dist.n + 1).toNat = _
    rw [toNat_succ (by rw [h.n]; exact hlen), h.n]
  have hN : opticsDistSamples = 200 := rfl
  have hput := recordBody_put rng dist v s
  by_cases hfill : dist.n.toNat < opticsDistSamples
  · -- there is room for the value
    have hsamples : (recordBody rng dist v s).1.samples.toList.take (values.length + 1) =
        values ++ [v] := by
      have htake := take_set_samples dist.samples hfill v
      rw [Vector.toList_set] at htake
      rw [hput, recordIndex, dif_pos hfill, ← h.n, htake, h.n, h.all (by rw [← h.n]; omega)]
    have hres : lensDistReservoirLen (recordBody rng dist v s).1.n = values.length + 1 := by
      rw [lensDistReservoirLen, hn]
      rw [h.n] at hfill
      omega
    exact ⟨h.lock, by rw [hn, hcount], by rw [hres, hsamples], fun _ => by rw [hcount, hsamples]⟩
  · -- a sample of a slot that is full is replaced, or none is
    have hwhole : dist.samples.toList.take (lensDistReservoirLen dist.n) = dist.samples.toList := by
      refine List.take_of_length_le ?_
      rw [Vector.length_toList, lensDistReservoirLen]
      omega
    have hsub := h.samples
    rw [hwhole] at hsub
    refine ⟨h.lock, by rw [hn, hcount], ?_, fun hle => ?_⟩
    · refine (List.take_sublist _ _).subperm.trans ?_
      rw [hput]
      refine (set_subperm (recordIndex rng dist.n s).1.toNat v).trans ?_
      exact ((List.subperm_cons v).mpr hsub).trans (List.perm_append_singleton v values).symm.subperm
    · rw [hcount] at hle
      rw [h.n] at hfill
      omega

end Slots

/-! ### Records -/

/-- A record with samples of some values. -/
structure Collected (value : OpticsDist) (taken : List Double) : Prop where
  n : value.n.toNat = taken.length
  length : value.samples.length = lensDistReservoirLen value.n
  samples : value.samples.Subperm taken

theorem collected_zero : Collected OpticsDist.zero [] := ⟨rfl, rfl, List.nil_subperm⟩

section Records
variable {σ : Type} {fpu : Fpu} {rng : Rng σ} {value value' : OpticsDist} {taken values : List Double}

theorem mergeSamples_eq {n : UInt64} {samples : List Double} {s s' : σ} (hn : n ≠ 0)
    (h : value.mergeSamples fpu rng n samples s = .ok (value', s')) :
    ∃ k, lensDistMerge fpu rng samples n value.samples value.n s = .ok (value'.samples, k, s') ∧
      value'.n = value.n + n := by
  unfold OpticsDist.mergeSamples at h
  rw [if_neg hn] at h
  obtain ⟨⟨result, resultLen, s1⟩, hmerge, h⟩ := bind_eq_ok.mp h
  obtain ⟨sorted, -, h⟩ := bind_eq_ok.mp h
  obtain ⟨p50, -, h⟩ := bind_eq_ok.mp h
  obtain ⟨p90, -, h⟩ := bind_eq_ok.mp h
  obtain ⟨p99, -, h⟩ := bind_eq_ok.mp h
  cases h
  exact ⟨resultLen, hmerge, rfl⟩

theorem length_copySlot (dist : LensDistEpoch) :
    (copySlot dist).2.length = lensDistReservoirLen (copySlot dist).1 := by
  unfold copySlot lensDistReservoirLen
  rw [List.length_take, Vector.length_toList, min_assoc, min_self]

/-- **A read** adds the values of the slot. -/
theorem Collected.read (h : Collected value taken) {dist : LensDistEpoch}
    (hdist : HasRecorded dist values) (hsum : taken.length + values.length < 2 ^ 64) {s s' : σ}
    (hread : value.mergeSamples fpu rng (copySlot dist).1 (copySlot dist).2 s = .ok (value', s')) :
    Collected value' (taken ++ values) := by
  have hn := hdist.n
  by_cases h0 : (copySlot dist).1 = 0
  · have hnil : values = [] := List.length_eq_zero_iff.mp (by
      rw [← hn]
      exact congrArg UInt64.toNat h0)
    unfold OpticsDist.mergeSamples at hread
    rw [if_pos h0] at hread
    cases hread
    rwa [hnil, List.append_nil]
  · obtain ⟨k, hmerge, hadd⟩ := mergeSamples_eq h0 hread
    obtain ⟨hk, hlen, hsub⟩ := lensDistMerge_spec (length_copySlot dist) h.length hmerge
    have hcount : value'.n.toNat = taken.length + values.length := by
      rw [hadd, UInt64.toNat_add, h.n]
      change (taken.length + dist.n.toNat) % 2 ^ 64 = _
      rw [hn]
      exact Nat.mod_eq_of_lt hsum
    refine ⟨by rw [hcount, List.length_append], ?_, ?_⟩
    · change k = min (dist.n.toNat + value.n.toNat) opticsDistSamples at hk
      rw [hlen, hk, lensDistReservoirLen, hcount, hn, h.n, Nat.add_comm]
    · refine hsub.trans ?_
      exact (hdist.samples.append h.samples).trans List.perm_append_comm.subperm

theorem drawsReturn (hround : fpu.round = binary64.round) (hrng : Answers rng) {n m : UInt64}
    (hle : m.toNat ≤ n.toNat) (hsum : n.toNat + m.toNat < 2 ^ 64) : DrawsReturn fpu rng n m := by
  refine ⟨fun hfull _ => draws_of_room hfull hsum.le, fun hbig s => ?_⟩
  have hdiv : fpu.div (.fin (doubleOf m)) (.fin (doubleOf (m + n))) =
      binary64.div (.fin (doubleOf m)) (.fin (doubleOf (m + n))) := by
    unfold Fpu.div
    rw [hround]
  rw [hdiv]
  exact hrng s _ (meaningful_rate (by omega) hle (by omega))

/-- A read returns, if the conversions to `int` and the draws do. -/
theorem Collected.read_returns (h : Collected value taken) {dist : LensDistEpoch}
    (hdist : HasRecorded dist values) (hsum : taken.length + values.length < 2 ^ 64)
    (hint : ∀ d, ∃ n, fpu.toInt d = .ok n) (hround : fpu.round = binary64.round)
    (hrng : Answers rng) (s : σ) : ∃ value' s',
      value.mergeSamples fpu rng (copySlot dist).1 (copySlot dist).2 s = .ok (value', s') := by
  have hn : (copySlot dist).1.toNat = values.length := hdist.n
  obtain ⟨value', s', hrun, -⟩ := mergeSamples_returns hint
    (fun hle => drawsReturn hround hrng hle (by rw [hn, h.n]; omega))
    (fun hle => drawsReturn hround hrng hle (by rw [hn, h.n]; omega)) h.length.ge
      (length_copySlot dist).ge s
  exact ⟨value', s', hrun⟩

end Records

/-! ### Runs -/

/-- The lenses, and the record they are read into. -/
structure Poll (ι : Type) where
  lenses : ι → LensData
  value : OpticsDist

inductive Op (ι : Type) where
  | record (i : ι) (epoch : Fin 2) (value : Double)
  | read (i : ι) (epoch : Fin 2)

section Model
variable {ι σ : Type} [DecidableEq ι] (fpu : Fpu) (rng : Rng σ)

def exec (st : Poll ι) (op : Op ι) (s : σ) : Outcome (Poll ι × σ) :=
  match op with
  | .record i epoch value => do
    let (_, lens, s) ← lensDistRecord rng (st.lenses i) epoch value s
    .ok ({ st with lenses := Function.update st.lenses i lens }, s)
  | .read i epoch => do
    let (_, value, lens, s) ← lensDistRead fpu rng (st.lenses i) epoch st.value s
    .ok (⟨Function.update st.lenses i lens, value⟩, s)

/-- Operations one after the other. -/
def run : List (Op ι) → Poll ι → σ → Outcome (Poll ι × σ)
  | [], st, s => .ok (st, s)
  | op :: ops, st, s => do
    let (st, s) ← exec fpu rng st op s
    run ops st s

end Model

/-! ### What has been recorded -/

/-- The values that have been read into the record, and those left in the slots. -/
structure Recorded (ι : Type) where
  taken : List Double
  left : List ((ι × Fin 2) × Double)

section Recorded
variable {ι : Type} [DecidableEq ι]

/-- The values in a slot. -/
def Recorded.slot (r : Recorded ι) (slot : ι × Fin 2) : List Double :=
  (r.left.filter fun p => p.1 = slot).map Prod.snd

def Recorded.after (r : Recorded ι) : Op ι → Recorded ι
  | .record i epoch value => { r with left := r.left ++ [((i, epoch), value)] }
  | .read i epoch =>
    ⟨r.taken ++ r.slot (i, epoch), r.left.filter fun p => p.1 ≠ (i, epoch)⟩

/-- What the operations of a run record, and where it is in the end. -/
def recorded (ops : List (Op ι)) : Recorded ι := ops.foldl Recorded.after ⟨[], []⟩

/-- The values of a run. -/
def values : List (Op ι) → List Double
  | [] => []
  | .record _ _ value :: ops => value :: values ops
  | .read _ _ :: ops => values ops

def Recorded.everything (r : Recorded ι) : List Double := r.taken ++ r.left.map Prod.snd

theorem Recorded.slot_record (r : Recorded ι) (i : ι) (epoch : Fin 2) (v : Double)
    (slot : ι × Fin 2) : (r.after (.record i epoch v)).slot slot =
      if (i, epoch) = slot then r.slot slot ++ [v] else r.slot slot := by
  by_cases h : (i, epoch) = slot
  · simp [Recorded.slot, Recorded.after, h]
  · simp [Recorded.slot, Recorded.after, h]

theorem Recorded.slot_read (r : Recorded ι) (i : ι) (epoch : Fin 2) (slot : ι × Fin 2) :
    (r.after (.read i epoch)).slot slot = if (i, epoch) = slot then [] else r.slot slot := by
  unfold Recorded.slot Recorded.after
  rw [List.filter_filter]
  split_ifs with h
  · rw [h]
    simp
  · congr 1
    refine List.filter_congr fun p _ => ?_
    by_cases hp : p.1 = slot
    · simp [hp, Ne.symm h]
    · simp [hp]

theorem Recorded.everything_after (r : Recorded ι) (op : Op ι) :
    (r.after op).everything.Perm (r.everything ++ values [op]) := by
  cases op with
  | record i epoch v =>
    unfold Recorded.everything Recorded.after
    rw [List.map_append, ← List.append_assoc]
    exact List.Perm.refl _
  | read i epoch =>
    have hsplit : (r.slot (i, epoch) ++ (r.left.filter fun p => p.1 ≠ (i, epoch)).map Prod.snd).Perm
        (r.left.map Prod.snd) := by
      have h := (List.filter_append_perm (fun p => decide (p.1 = (i, epoch))) r.left).map Prod.snd
      rw [List.map_append] at h
      simpa [Recorded.slot] using h
    unfold Recorded.everything Recorded.after
    rw [values, values, List.append_nil, List.append_assoc]
    exact hsplit.append_left r.taken

theorem values_cons {ι : Type} (op : Op ι) (ops : List (Op ι)) :
    values (op :: ops) = values [op] ++ values ops := by
  cases op with
  | record i epoch v => rfl
  | read i epoch => rfl

theorem everything_foldl (ops : List (Op ι)) : ∀ r : Recorded ι,
    (ops.foldl Recorded.after r).everything.Perm (r.everything ++ values ops) := by
  induction ops with
  | nil => exact fun r => by rw [values, List.append_nil]; exact List.Perm.refl _
  | cons op ops ih =>
    intro r
    rw [List.foldl_cons, values_cons, ← List.append_assoc]
    exact (ih _).trans ((r.everything_after op).append_right _)

theorem everything_recorded (ops : List (Op ι)) : (recorded ops).everything.Perm (values ops) :=
  everything_foldl ops ⟨[], []⟩

theorem Recorded.length_slot_le (r : Recorded ι) (slot : ι × Fin 2) :
    r.taken.length + (r.slot slot).length ≤ r.everything.length := by
  unfold Recorded.everything Recorded.slot
  rw [List.length_append, List.length_map, List.length_map]
  exact Nat.add_le_add_left (List.length_filter_le _ _) _

end Recorded

/-! ### Operations -/

/-- The slots and the record hold samples of what has been recorded. -/
structure Good {ι : Type} [DecidableEq ι] (st : Poll ι) (r : Recorded ι) : Prop where
  slots : ∀ i, ∃ epochs, st.lenses i = .dist epochs ∧ ∀ e, HasRecorded (epochs e) (r.slot (i, e))
  value : Collected st.value r.taken

section Runs
variable {ι σ : Type} [DecidableEq ι] {fpu : Fpu} {rng : Rng σ} {st st' : Poll ι} {r : Recorded ι}

theorem slots_update {lenses : ι → LensData} {slots slots' : ι × Fin 2 → List Double}
    (h : ∀ i, ∃ epochs, lenses i = .dist epochs ∧ ∀ e, HasRecorded (epochs e) (slots (i, e)))
    {i : ι} {epochs : Fin 2 → LensDistEpoch} (hi : lenses i = .dist epochs) {e : Fin 2}
    {dist : LensDistEpoch} (hdist : HasRecorded dist (slots' (i, e)))
    (hkeep : ∀ slot, (i, e) ≠ slot → slots' slot = slots slot) (j : ι) :
    ∃ epochs', Function.update lenses i (.dist (Function.update epochs e dist)) j = .dist epochs' ∧
      ∀ e', HasRecorded (epochs' e') (slots' (j, e')) := by
  obtain ⟨old, hold, hslots⟩ := h j
  by_cases hj : j = i
  · subst hj
    obtain rfl : epochs = old := LensData.dist.inj (hi.symm.trans hold)
    refine ⟨_, Function.update_self .., fun e' => ?_⟩
    by_cases he : e' = e
    · subst he
      rwa [Function.update_self]
    · rw [Function.update_of_ne he, hkeep _ fun heq => he (Prod.mk.inj heq).2.symm]
      exact hslots e'
  · refine ⟨old, by rw [Function.update_of_ne hj]; exact hold, fun e' => ?_⟩
    rw [hkeep _ fun heq => hj (Prod.mk.inj heq).1.symm]
    exact hslots e'

/-- **An operation** keeps what has been recorded. -/
theorem Good.exec (h : Good st r) {op : Op ι}
    (hsum : (r.everything ++ values [op]).length < 2 ^ 64) {s s' : σ}
    (hexec : exec fpu rng st op s = .ok (st', s')) : Good st' (r.after op) := by
  rw [List.length_append] at hsum
  unfold DistReservoirs.exec at hexec
  cases op with
  | record i epoch v =>
    obtain ⟨epochs, hlens, hslots⟩ := h.slots i
    have hlen := r.length_slot_le (i, epoch)
    dsimp only at hexec
    rw [hlens, lensDistRecord_spec (hslots epoch).lock, ok_bind] at hexec
    cases hexec
    refine ⟨slots_update h.slots hlens ?_ fun slot hne => ?_, h.value⟩
    · rw [r.slot_record, if_pos rfl]
      exact (hslots epoch).record (by rw [values, List.length_cons] at hsum; omega) v s
    · rw [r.slot_record, if_neg hne]
  | read i epoch =>
    obtain ⟨epochs, hlens, hslots⟩ := h.slots i
    have hlen := r.length_slot_le (i, epoch)
    dsimp only at hexec
    rw [hlens, lensDistRead_spec (hslots epoch).lock] at hexec
    obtain ⟨⟨ret, value', lens', s1⟩, hread, hexec⟩ := bind_eq_ok.mp hexec
    obtain ⟨⟨value1, s2⟩, hmerge, hread⟩ := bind_eq_ok.mp hread
    cases hread
    cases hexec
    have hvalue : Collected (st.value.mergeMax (epochs epoch).max) r.taken :=
      ⟨h.value.n, h.value.length, h.value.samples⟩
    refine ⟨slots_update h.slots hlens ?_ fun slot hne => ?_,
      hvalue.read (hslots epoch) (by omega) hmerge⟩
    · rw [r.slot_read, if_pos rfl]
      exact hasRecorded_nil rfl rfl
    · rw [r.slot_read, if_neg hne]

theorem Good.exec_returns (h : Good st r) (op : Op ι) (hsum : r.everything.length < 2 ^ 64)
    (hint : ∀ d, ∃ n, fpu.toInt d = .ok n) (hround : fpu.round = binary64.round)
    (hrng : Answers rng) (s : σ) : ∃ st' s', DistReservoirs.exec fpu rng st op s = .ok (st', s') := by
  unfold DistReservoirs.exec
  cases op with
  | record i epoch v =>
    obtain ⟨epochs, hlens, hslots⟩ := h.slots i
    dsimp only
    rw [hlens, lensDistRecord_spec (hslots epoch).lock, ok_bind]
    exact ⟨_, _, rfl⟩
  | read i epoch =>
    obtain ⟨epochs, hlens, hslots⟩ := h.slots i
    have hlen := r.length_slot_le (i, epoch)
    have hvalue : Collected (st.value.mergeMax (epochs epoch).max) r.taken :=
      ⟨h.value.n, h.value.length, h.value.samples⟩
    obtain ⟨value', s', hmerge⟩ :=
      hvalue.read_returns (hslots epoch) (by omega) hint hround hrng s
    dsimp only
    rw [hlens, lensDistRead_spec (hslots epoch).lock, hmerge, ok_bind]
    exact ⟨_, _, rfl⟩

/-- **A run** keeps what has been recorded, and returns. -/
theorem run_spec (fpu : Fpu) (rng : Rng σ) (ops : List (Op ι)) : ∀ {st : Poll ι} {r : Recorded ι}
    (s : σ), Good st r →
    (r.everything ++ values ops).length < 2 ^ 64 →
    (∀ st' s', run fpu rng ops st s = .ok (st', s') → Good st' (ops.foldl Recorded.after r)) ∧
      ((∀ d, ∃ n, fpu.toInt d = .ok n) → fpu.round = binary64.round → Answers rng →
        ∃ st' s', run fpu rng ops st s = .ok (st', s')) := by
  induction ops with
  | nil =>
    intro st r s h _
    refine ⟨fun st' s' hrun => ?_, fun _ _ _ => ⟨st, s, rfl⟩⟩
    cases hrun
    exact h
  | cons op ops ih =>
    intro st r s h hsum
    rw [values_cons, ← List.append_assoc] at hsum
    have hop : (r.everything ++ values [op]).length < 2 ^ 64 := by
      rw [List.length_append] at hsum
      omega
    have hrest : ((r.after op).everything ++ values ops).length < 2 ^ 64 := by
      rwa [((r.everything_after op).append_right _).length_eq]
    refine ⟨fun st' s' hrun => ?_, fun hint hround hrng => ?_⟩
    · obtain ⟨⟨st1, s1⟩, hexec, hrun⟩ := bind_eq_ok.mp hrun
      exact (ih s1 (h.exec hop hexec) hrest).1 st' s' hrun
    · obtain ⟨st1, s1, hexec⟩ := h.exec_returns op (by rw [List.length_append] at hop; omega) hint
        hround hrng s
      obtain ⟨st', s', hrun⟩ := (ih s1 (h.exec hop hexec) hrest).2 hint hround hrng
      refine ⟨st', s', ?_⟩
      rw [run, hexec, ok_bind]
      exact hrun

end Runs

/-! ### Every run and every merge -/

/-- The arithmetic of binary64, with any conversion to `int`. -/
def machine (toInt : Double → Outcome ℤ) : Fpu := { binary64 with toInt }

/-- Slots nobody holds that have been reset, and a zeroed record. -/
structure Fresh {ι : Type} (st : Poll ι) : Prop where
  slots : ∀ i, ∃ epochs, st.lenses i = .dist epochs ∧
    ∀ e, (epochs e).lock = false ∧ (epochs e).n = 0
  value : st.value = OpticsDist.zero

theorem Fresh.good {ι : Type} [DecidableEq ι] {st : Poll ι} (h : Fresh st) :
    Good st (recorded []) where
  slots i := by
    obtain ⟨epochs, hlens, hslots⟩ := h.slots i
    exact ⟨epochs, hlens, fun e => hasRecorded_nil (hslots e).1 (hslots e).2⟩
  value := h.value ▸ collected_zero

/-- An array with the samples of a reservoir that stands for `n` values. -/
structure Reservoir (a : Samples) (n : UInt64) (l : List Double) : Prop where
  holds : Holds a l
  length : l.length = lensDistReservoirLen n

/-- The merge of two arrays returns: every access is to a cell with a value, every range that is
drawn from has a number, and the result has as many samples of the two as there is room for. -/
def Merges {σ : Type} (fpu : Fpu) (rng : Rng σ) (dst lhs : Samples) (n : UInt64) (l : List Double)
    (rhs : Samples) (m : UInt64) (l' : List Double) (s : σ) (log : List Draw) : Prop :=
  ∃ dst' r s' draws, mergeArrays fpu rng.traced dst lhs n rhs m (s, log) =
      .ok (dst', min (n.toNat + m.toNat) opticsDistSamples, s', log ++ draws) ∧
    Holds dst' r ∧ r.length = min (n.toNat + m.toNat) opticsDistSamples ∧ r.Subperm (l ++ l') ∧
    (n.toNat + m.toNat ≤ opticsDistSamples → r.Perm (l ++ l')) ∧ ∀ draw ∈ draws, HasNumber draw

theorem merges {σ : Type} {fpu : Fpu} {rng : Rng σ} (hround : fpu.round = binary64.round)
    (hrng : Answers rng) {lhs rhs : Samples} {n m : UInt64} {l l' : List Double}
    (hlhs : Reservoir lhs n l) (hrhs : Reservoir rhs m l') (hsum : n.toNat + m.toNat < 2 ^ 64)
    (dst : Samples) (s : σ) (log : List Draw) : Merges fpu rng dst lhs n l rhs m l' s log := by
  obtain ⟨r, k, ⟨s', log'⟩, hrun, -⟩ := lensDistMerge_returns
    (fun hle => drawsReturn hround hrng.traced hle hsum)
    (fun hle => drawsReturn hround hrng.traced hle (by omega)) hlhs.length.ge hrhs.length.ge (s, log)
  obtain ⟨rfl, hlen, hsub⟩ := lensDistMerge_spec hlhs.length hrhs.length hrun
  obtain ⟨draws, rfl, hdraws⟩ := lensDistMerge_draws hsum.le hrun
  obtain ⟨dst', harrays, hdst'⟩ :=
    mergeArrays_spec hlhs.holds hrhs.holds hlhs.length hrhs.length hrun
  exact ⟨dst', r, s', draws, harrays, hdst', hlen, hsub,
    lensDistMerge_perm hlhs.length hrhs.length hrun, hdraws⟩

/-- **Reservoirs hold what was recorded**, none twice: after every run of less than `2^64` records,
and after every merge of reservoirs for less than `2^64` values. -/
theorem reservoirs {ι σ : Type} [DecidableEq ι] {rng : Rng σ} (hrng : Answers rng)
    (toInt : Double → Outcome ℤ) :
    (∀ (ops : List (Op ι)) (st : Poll ι) (s : σ), Fresh st → (values ops).length < 2 ^ 64 →
      (recorded ops).everything.Perm (values ops) ∧
      (∀ st' s', run (machine toInt) rng ops st s = .ok (st', s') → Good st' (recorded ops)) ∧
      ((∀ d, ∃ n, toInt d = .ok n) → ∃ st' s', run (machine toInt) rng ops st s = .ok (st', s'))) ∧
    ∀ (lhs rhs : Samples) (n m : UInt64) (l l' : List Double), Reservoir lhs n l →
      Reservoir rhs m l' → n.toNat + m.toNat < 2 ^ 64 →
      ∀ dst s log, Merges (machine toInt) rng dst lhs n l rhs m l' s log := by
  refine ⟨fun ops st s hst hlen => ?_, fun lhs rhs n m l l' hlhs hrhs hsum dst s log =>
    merges rfl hrng hlhs hrhs hsum dst s log⟩
  obtain ⟨hgood, hreturns⟩ := run_spec (machine toInt) rng ops s hst.good hlen
  exact ⟨everything_recorded ops, hgood, fun hint => hreturns hint rfl hrng⟩

/-- Lenses that have recorded nothing, and a zeroed record. -/
def fresh {ι : Type} : Poll ι := ⟨fun _ => freshDist, OpticsDist.zero⟩

theorem fresh_fresh {ι : Type} : Fresh (fresh : Poll ι) :=
  ⟨fun _ => ⟨_, rfl, fun _ => ⟨rfl, rfl⟩⟩, rfl⟩

/-- An array of zeros. -/
def zeros : Samples := Vector.replicate opticsDistSamples (some (.fin 0))

theorem holds_zeros {k : ℕ} (h : k ≤ opticsDistSamples) :
    Holds zeros (List.replicate k (.fin 0)) := by
  intro i hi
  rw [List.length_replicate] at hi
  unfold load zeros
  rw [dif_pos (hi.trans_le h), Vector.getElem_replicate, List.getElem_replicate]

theorem reservoir_zeros (n : UInt64) :
    Reservoir zeros n (List.replicate (lensDistReservoirLen n) (.fin 0)) :=
  ⟨holds_zeros (min_le_right _ _), List.length_replicate⟩

/-- Records into the slots of two lenses, and reads of the slots of one epoch. -/
def twoLenses : List (Op Bool) :=
  [.record true 0 (.fin 1), .record false 0 (.fin 2), .record true 1 (.fin 3),
    .record true 0 (.fin (-5)), .read true 0, .read false 0]

theorem reservoirs_two :
    (∃ st' s', run binary64 (xorshift binary64) twoLenses fresh 1 = .ok (st', s') ∧
      st'.value.n.toNat = 3 ∧ st'.value.samples.Subperm [.fin 1, .fin (-5), .fin 2]) ∧
    Merges binary64 (xorshift binary64) zeros zeros 1000
      (List.replicate (lensDistReservoirLen 1000) (.fin 0)) zeros 2
      (List.replicate (lensDistReservoirLen 2) (.fin 0)) 1 [] := by
  have hall := reservoirs (ι := Bool) answers_xorshift intOf
  obtain ⟨⟨st', s'⟩, hrun⟩ := exists_of_isOk
    (x := run binary64 (xorshift binary64) twoLenses fresh 1) (by decide +kernel)
  have hgood := (hall.1 twoLenses fresh 1 fresh_fresh (by decide)).2.1 st' s' hrun
  exact ⟨⟨st', s', hrun, hgood.value.n, hgood.value.samples⟩,
    hall.2 zeros zeros 1000 2 _ _ (reservoir_zeros _) (reservoir_zeros _) (by decide) zeros 1 []⟩

/-- Records are counted modulo `2^64`. -/
theorem run_records {σ : Type} (fpu : Fpu) (rng : Rng σ) (v : Double) : ∀ (k : ℕ) {st : Poll Unit}
    {epochs : Fin 2 → LensDistEpoch} (s : σ), st.lenses () = .dist epochs →
    (epochs 0).lock = false → ∃ st' s' epochs',
      run fpu rng (List.replicate k (.record () 0 v)) st s = .ok (st', s') ∧
        st'.lenses () = .dist epochs' ∧ (epochs' 0).n = (epochs 0).n + .ofNat k
  | 0, st, epochs, s, hlens, _ => ⟨st, s, epochs, rfl, hlens, (UInt64.add_zero _).symm⟩
  | k + 1, st, epochs, s, hlens, hlock => by
    obtain ⟨st1, s1, epochs1, hexec, hlens1, hlock1, hn1⟩ : ∃ st1 s1 epochs1,
        exec fpu rng st (.record () 0 v) s = .ok (st1, s1) ∧ st1.lenses () = .dist epochs1 ∧
          (epochs1 0).lock = false ∧ (epochs1 0).n = (epochs 0).n + 1 := by
      unfold exec
      dsimp only
      rw [hlens, lensDistRecord_spec hlock, ok_bind]
      exact ⟨_, _, _, rfl, rfl, hlock, rfl⟩
    obtain ⟨st', s', epochs', hrun, hlens', hn'⟩ := run_records fpu rng v k s1 hlens1 hlock1
    refine ⟨st', s', epochs', ?_, hlens', ?_⟩
    · rw [List.replicate_succ, run, hexec, ok_bind]
      exact hrun
    · rw [hn', hn1, UInt64.add_assoc, UInt64.ofNat_add, UInt64.add_comm 1]
      rfl

theorem values_replicate (v : Double) : ∀ k : ℕ,
    values (List.replicate k (.record () 0 v : Op Unit)) = List.replicate k v
  | 0 => rfl
  | k + 1 => congrArg (v :: ·) (values_replicate v k)

/-- Doubles in binary64, where zero divides a word no times. -/
def lenient : Fpu := { binary64 with remZero := .ok }

/-- After `2^64` records a slot is empty; and a merge that gets there draws from an empty range, which
divides by zero. -/
theorem reservoirs_overflow :
    (∃ (ops : List (Op Unit)) (st' : Poll Unit) (s' : UInt64) (epochs : Fin 2 → LensDistEpoch),
      run binary64 (xorshift binary64) ops fresh 1 = .ok (st', s') ∧
        (values ops).length = 2 ^ 64 ∧ st'.lenses () = .dist epochs ∧ (epochs 0).n = 0) ∧
    (∃ dst' s' draws, mergeArrays lenient (xorshift lenient).traced zeros zeros
        0xffffffffffffffff zeros 2 (1, []) = .ok (dst', opticsDistSamples, s', draws) ∧
      .range 0 0 ∈ draws) ∧
    mergeArrays binary64 (xorshift binary64) zeros zeros 0xffffffffffffffff zeros 2 1 =
      .error .undefined := by
  refine ⟨?_, ?_, ?_⟩
  · obtain ⟨st', s', epochs, hrun, hlens, hn⟩ := run_records binary64 (xorshift binary64)
      (.fin 0) (2 ^ 64) 1 (show fresh.lenses () = freshDist from rfl) rfl
    refine ⟨_, st', s', epochs, hrun, ?_, hlens, ?_⟩
    · rw [values_replicate, List.length_replicate]
    · rw [hn]
      decide
  · have hmerge : ∃ r s', lensDistMerge lenient (xorshift lenient).traced
        (List.replicate 200 (.fin 0)) 0xffffffffffffffff (List.replicate 2 (.fin 0)) 2 (1, []) =
          .ok (r, opticsDistSamples, s', [.range 0 0xffffffffffffffff, .range 0 0]) := by
      unfold lensDistMerge mergeInto mergeFull
      rw [if_pos (by decide), if_neg (by decide), if_neg (by decide), if_pos (by decide)]
      exact ⟨_, _, rfl⟩
    obtain ⟨r, s', hmerge⟩ := hmerge
    obtain ⟨dst', harrays, -⟩ := mergeArrays_spec (holds_zeros le_rfl) (holds_zeros (by decide))
      List.length_replicate List.length_replicate hmerge
    exact ⟨dst', s', _, harrays, List.mem_cons_of_mem _ List.mem_cons_self⟩
  · have hfault : (mergeArrays binary64 (xorshift binary64) zeros zeros 0xffffffffffffffff
        zeros 2 1).map (fun _ => ()) = .error .undefined := by decide +kernel
    cases hrun : mergeArrays binary64 (xorshift binary64) zeros zeros 0xffffffffffffffff
        zeros 2 1 with
    | ok r =>
      rw [hrun] at hfault
      cases hfault
    | error e =>
      rw [hrun] at hfault
      cases hfault
      rfl

end Optics.DistReservoirs
