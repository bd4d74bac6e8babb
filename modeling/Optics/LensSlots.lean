import Optics.Lenses
import Mathlib.Data.UInt
import Mathlib.Algebra.Order.Ring.Rat
import Mathlib.Tactic.Abel

/-! # What lenses record

The data of a lens by type, with the recording and reading functions of `lens_counter.c`,
`lens_gauge.c` and `lens_histo.c`. Counters and histograms record into two slots, one for each parity
of the epoch; a slot has a number for each of its `Part`s, to which a record adds and which a read
exchanges with 0. The data of distributions and quantiles has its functions in modules of its own. -/

namespace Optics.LensSlots

open Optics.Base Optics.Lenses

/-- `enum optics_ret`, as far as the functions that read a lens return it. -/
inductive OpticsRet where
  | ok | err | busy
  deriving DecidableEq, Repr

/-! ### Doubles -/

/-- A `double`. -/
inductive Double where
  | nan
  | negInf
  | fin (q : ℚ)
  | posInf

/-- The conversion of a `uint64_t` to a `double`: 53 bits are kept, ties go to the even one. -/
def doubleOf (n : UInt64) : ℚ :=
  let k := Nat.log2 n.toNat - 52
  let q := n.toNat >>> k
  let r := n.toNat % 2 ^ k
  if k = 0 then n.toNat
  else if 2 ^ (k - 1) < r ∨ (r = 2 ^ (k - 1) ∧ q % 2 = 1) then ((q + 1) * 2 ^ k : ℕ)
  else (q * 2 ^ k : ℕ)

/-- Numbers of up to 53 bits are doubles. -/
theorem doubleOf_of_lt {n : UInt64} (h : n.toNat < 2 ^ 53) : doubleOf n = n.toNat := by
  have hlog : Nat.log2 n.toNat - 52 = 0 := by
    by_cases h0 : n.toNat = 0
    · rw [h0]
      rfl
    · have := (Nat.log2_lt h0).mpr h
      omega
  unfold doubleOf
  rw [if_pos hlog]

/-- `value < bound`. -/
def Double.lt (bound : UInt64) : Double → Bool
  | .nan => false
  | .negInf => true
  | .fin q => q < doubleOf bound
  | .posInf => false

/-- `value >= bound`. -/
def Double.ge (bound : UInt64) : Double → Bool
  | .nan => false
  | .negInf => false
  | .fin q => doubleOf bound ≤ q
  | .posInf => true

/-! ### Slots -/

/-- A number in a slot: that of a counter, or one of a histogram. -/
inductive Part where
  | value
  | below
  | above
  | counts (i : Fin opticsHistoBucketsMax)
  deriving DecidableEq

/-- `struct lens_histo_epoch`. -/
structure LensHistoEpoch where
  below : UInt64
  above : UInt64
  counts : Fin opticsHistoBucketsMax → UInt64

def LensHistoEpoch.get (h : LensHistoEpoch) : Part → UInt64
  | .value => 0
  | .below => h.below
  | .above => h.above
  | .counts i => h.counts i

def LensHistoEpoch.set (h : LensHistoEpoch) (v : UInt64) : Part → LensHistoEpoch
  | .value => h
  | .below => { h with below := v }
  | .above => { h with above := v }
  | .counts i => { h with counts := Function.update h.counts i v }

theorem LensHistoEpoch.get_set (h : LensHistoEpoch) (v : UInt64) {p : Part} (hp : p ≠ .value)
    (p' : Part) : (h.set v p).get p' = if p' = p then v else h.get p' := by
  cases p with
  | value => exact absurd rfl hp
  | below => cases p' <;> simp [set, get]
  | above => cases p' <;> simp [set, get]
  | counts i =>
    cases p' with
    | counts j => simp [set, get, Function.update_apply]
    | _ => simp [set, get]

/-- `struct lens_dist_epoch`. -/
structure LensDistEpoch where
  lock : Bool
  n : UInt64
  max : Double
  samples : Vector Double opticsDistSamples

/-- `struct lens_quantile`. -/
structure LensQuantile where
  targetQuantile : Double
  originalEstimate : Double
  adjustmentValue : Double
  multiplier : UInt64
  count : Fin 2 → UInt64

/-- The data of a lens. -/
inductive LensData where
  | counter (value : Fin 2 → UInt64)
  | gauge (value : UInt64)
  | dist (epochs : Fin 2 → LensDistEpoch)
  | histo (epochs : Fin 2 → LensHistoEpoch) (buckets : List UInt64)
  | quantile (q : LensQuantile)

/-- `lens->type`. -/
def LensData.type : LensData → LensType
  | .counter _ => .counter
  | .gauge _ => .gauge
  | .dist _ => .dist
  | .histo .. => .histo
  | .quantile _ => .quantile

/-- The parts of a slot that are in use. -/
def LensData.parts : LensData → List Part
  | .counter _ => [.value]
  | .histo _ buckets => .below :: .above :: ((List.finRange opticsHistoBucketsMax).take
      (buckets.length - 1)).map .counts
  | _ => []

/-- The content of the slot of an epoch. -/
def LensData.slot (d : LensData) (e : Fin 2) (p : Part) : UInt64 :=
  match d with
  | .counter value => if p = .value then value e else 0
  | .histo epochs _ => (epochs e).get p
  | _ => 0

def LensData.setSlot (d : LensData) (e : Fin 2) (p : Part) (v : UInt64) : LensData :=
  match d with
  | .counter value => .counter (Function.update value e v)
  | .histo epochs buckets => .histo (Function.update epochs e ((epochs e).set v p)) buckets
  | d => d

/-- `atomic_fetch_add`. -/
def LensData.fetchAdd (d : LensData) (e : Fin 2) (p : Part) (v : UInt64) : LensData :=
  d.setSlot e p (d.slot e p + v)

theorem LensData.parts_setSlot (d : LensData) (e : Fin 2) (p : Part) (v : UInt64) :
    (d.setSlot e p v).parts = d.parts := by
  cases d <;> rfl

theorem LensData.value_notMem_histo (epochs : Fin 2 → LensHistoEpoch) (buckets : List UInt64) :
    .value ∉ (LensData.histo epochs buckets).parts := by
  intro h
  rcases List.mem_cons.mp h with h | h
  · cases h
  rcases List.mem_cons.mp h with h | h
  · cases h
  obtain ⟨i, -, h⟩ := List.mem_map.mp h
  cases h

theorem LensData.slot_setSlot {d : LensData} {p : Part} (hp : p ∈ d.parts) (e : Fin 2) (v : UInt64)
    (e' : Fin 2) (p' : Part) :
    (d.setSlot e p v).slot e' p' = if e' = e ∧ p' = p then v else d.slot e' p' := by
  cases d with
  | counter value =>
    have hp : p = .value := List.mem_singleton.mp hp
    subst hp
    by_cases h1 : e' = e
    · by_cases h2 : p' = .value <;> simp [LensData.setSlot, LensData.slot, h1, h2]
    · simp [LensData.setSlot, LensData.slot, h1]
  | histo epochs buckets =>
    have hp : p ≠ .value := fun hc => value_notMem_histo epochs buckets (hc ▸ hp)
    by_cases h1 : e' = e
    · subst h1
      simp [LensData.setSlot, LensData.slot, LensHistoEpoch.get_set _ _ hp]
    · simp [LensData.setSlot, LensData.slot, h1]
  | gauge _ => exact absurd hp List.not_mem_nil
  | dist _ => exact absurd hp List.not_mem_nil
  | quantile _ => exact absurd hp List.not_mem_nil

/-- Some parts of a slot, cleared one after the other. -/
def LensData.clear (e : Fin 2) (ps : List Part) (d : LensData) : LensData :=
  ps.foldl (fun d p => d.setSlot e p 0) d

theorem LensData.type_clear (e : Fin 2) (ps : List Part) (d : LensData) :
    (d.clear e ps).type = d.type := by
  induction ps generalizing d with
  | nil => rfl
  | cons p ps ih =>
    refine (ih (d.setSlot e p 0)).trans ?_
    cases d <;> rfl

theorem LensData.slot_clear {e : Fin 2} {ps : List Part} {d : LensData} (hps : ∀ p ∈ ps, p ∈ d.parts)
    (e' : Fin 2) (p' : Part) :
    (d.clear e ps).slot e' p' = if e' = e ∧ p' ∈ ps then 0 else d.slot e' p' := by
  induction ps generalizing d with
  | nil => simp [clear]
  | cons p ps ih =>
    have hd : ∀ q ∈ ps, q ∈ (d.setSlot e p 0).parts := fun q hq => by
      rw [parts_setSlot]
      exact hps q (List.mem_cons_of_mem _ hq)
    show ((d.setSlot e p 0).clear e ps).slot e' p' = _
    rw [ih hd, slot_setSlot (hps p List.mem_cons_self)]
    by_cases h1 : e' = e
    · by_cases h2 : p' ∈ ps
      · simp [h1, h2]
      · by_cases h3 : p' = p <;> simp [h1, h2, h3]
    · simp [h1]

theorem LensData.parts_nodup (d : LensData) : d.parts.Nodup := by
  cases d with
  | counter _ => exact List.nodup_singleton _
  | histo _ bs =>
    have hinj : Function.Injective Part.counts := fun a b h => by cases h; rfl
    have h := ((List.nodup_finRange opticsHistoBucketsMax).sublist
      (List.take_sublist (bs.length - 1) _)).map hinj
    refine List.nodup_cons.mpr ⟨fun hc => ?_, List.nodup_cons.mpr ⟨fun hc => ?_, h⟩⟩
    · rcases List.mem_cons.mp hc with hc | hc
      · cases hc
      · obtain ⟨i, -, hi⟩ := List.mem_map.mp hc
        cases hi
    · obtain ⟨i, -, hi⟩ := List.mem_map.mp hc
      cases hi
  | _ => exact List.nodup_nil

/-! ### Recording -/

/-- `lens_counter_inc`. -/
def lensCounterInc (lens : LensData) (epoch : Fin 2) (value : UInt64) : Bool × LensData :=
  match lens with
  | .counter v => (true, (LensData.counter v).fetchAdd epoch .value value)
  | lens => (false, lens)

/-- The loop of `lens_histo_inc`: the index of the first bound from the second on that is above the
value. -/
def findBucket (value : Double) : ℕ → List UInt64 → Option ℕ
  | _, [] => none
  | i, bound :: rest => if value.lt bound then some i else findBucket value (i + 1) rest

/-- The part of a histogram a value belongs to. There are at most as many buckets as counts. -/
def histoPart (buckets : List UInt64) (value : Double) : Option Part :=
  if value.lt (buckets.getD 0 0) then some .below
  else if value.ge (buckets.getD (buckets.length - 1) 0) then some .above
  else
    match findBucket value 0 buckets.tail with
    | none => none
    | some i => if h : i < opticsHistoBucketsMax then some (.counts ⟨i, h⟩) else none

/-- `lens_histo_inc`. -/
def lensHistoInc (lens : LensData) (epoch : Fin 2) (value : Double) : Outcome (Bool × LensData) :=
  match lens with
  | .histo epochs buckets =>
    match histoPart buckets value with
    | none => .error .abort
    | some part => .ok (true, (LensData.histo epochs buckets).fetchAdd epoch part 1)
  | lens => .ok (false, lens)

theorem findBucket_lt {value : Double} : ∀ {bs : List UInt64} {i j : ℕ},
    findBucket value i bs = some j → j < i + bs.length
  | b :: bs, i, j, h => by
    unfold findBucket at h
    rw [List.length_cons]
    split_ifs at h
    · cases h
      omega
    · have := findBucket_lt h
      omega

theorem histoPart_mem {buckets : List UInt64} {value : Double} {p : Part}
    (h : histoPart buckets value = some p) (epochs : Fin 2 → LensHistoEpoch) :
    p ∈ (LensData.histo epochs buckets).parts := by
  unfold histoPart at h
  unfold LensData.parts
  split_ifs at h with h1 h2
  · cases h
    exact List.mem_cons_self
  · cases h
    exact List.mem_cons_of_mem _ List.mem_cons_self
  · rcases hf : findBucket value 0 buckets.tail with _ | i
    · rw [hf] at h
      cases h
    · rw [hf] at h
      dsimp only at h
      split_ifs at h with hi
      cases h
      have hlt := findBucket_lt hf
      rw [List.length_tail] at hlt
      refine List.mem_cons_of_mem _ (List.mem_cons_of_mem _ (List.mem_map_of_mem ?_))
      refine List.mem_take_iff_getElem.mpr ⟨i, ?_, ?_⟩
      · rw [List.length_finRange]
        omega
      · simp

/-! ### Reading -/

/-- `lens_counter_read`: the slot is added to the caller's value and cleared. -/
def lensCounterRead (lens : LensData) (epoch : Fin 2) (value : UInt64) :
    OpticsRet × UInt64 × LensData :=
  match lens with
  | .counter v =>
    let lens := LensData.counter v
    (.ok, value + lens.slot epoch .value, lens.setSlot epoch .value 0)
  | lens => (.err, value, lens)

/-- `lens_gauge_read`: the value is stored for the caller, and stays. -/
def lensGaugeRead (lens : LensData) (value : UInt64) : OpticsRet × UInt64 × LensData :=
  match lens with
  | .gauge v => (.ok, v, .gauge v)
  | lens => (.err, value, lens)

/-- `struct optics_histo`; `buckets` are the first `buckets_len` bounds. -/
structure OpticsHisto where
  buckets : List UInt64
  below : UInt64
  above : UInt64
  counts : Fin opticsHistoBucketsMax → UInt64

/-- A part of a histogram the caller holds. -/
def OpticsHisto.get (h : OpticsHisto) : Part → UInt64
  | .value => 0
  | .below => h.below
  | .above => h.above
  | .counts i => h.counts i

/-- `value->part += v`. -/
def OpticsHisto.add (h : OpticsHisto) (v : UInt64) : Part → OpticsHisto
  | .value => h
  | .below => { h with below := h.below + v }
  | .above => { h with above := h.above + v }
  | .counts i => { h with counts := Function.update h.counts i (h.counts i + v) }

/-- The exchanges of `lens_histo_read`. -/
def drainHisto (epoch : Fin 2) : List Part → OpticsHisto → LensData → OpticsHisto × LensData
  | [], value, lens => (value, lens)
  | p :: ps, value, lens =>
    drainHisto epoch ps (value.add (lens.slot epoch p) p) (lens.setSlot epoch p 0)

theorem drainHisto_lens (e : Fin 2) (ps : List Part) (value : OpticsHisto) (lens : LensData) :
    (drainHisto e ps value lens).2 = lens.clear e ps := by
  induction ps generalizing value lens with
  | nil => rfl
  | cons p ps ih => exact ih _ _

theorem drainHisto_buckets (e : Fin 2) (ps : List Part) (value : OpticsHisto) (lens : LensData) :
    (drainHisto e ps value lens).1.buckets = value.buckets := by
  induction ps generalizing value lens with
  | nil => rfl
  | cons p ps ih =>
    refine (ih _ _).trans ?_
    cases p <;> rfl

theorem OpticsHisto.get_add (h : OpticsHisto) (v : UInt64) {p : Part} (hp : p ≠ .value) (p' : Part) :
    (h.add v p).get p' = h.get p' + if p' = p then v else 0 := by
  cases p with
  | value => exact absurd rfl hp
  | below => cases p' <;> simp [add, get]
  | above => cases p' <;> simp [add, get]
  | counts i =>
    cases p' with
    | counts j =>
      by_cases hij : j = i
      · simp [add, get, hij]
      · simp [add, get, hij]
    | _ => simp [add, get]

theorem drainHisto_get {e : Fin 2} {ps : List Part} {value : OpticsHisto} {lens : LensData}
    (hps : ∀ p ∈ ps, p ∈ lens.parts ∧ p ≠ .value) (hnd : ps.Nodup) (p' : Part) :
    (drainHisto e ps value lens).1.get p' = value.get p' + if p' ∈ ps then lens.slot e p' else 0 := by
  induction ps generalizing value lens with
  | nil => simp [drainHisto]
  | cons p ps ih =>
    obtain ⟨hin, hne⟩ := hps p List.mem_cons_self
    obtain ⟨hnot, hnd'⟩ := List.nodup_cons.mp hnd
    have hps' : ∀ q ∈ ps, q ∈ (lens.setSlot e p 0).parts ∧ q ≠ .value := fun q hq => by
      rw [LensData.parts_setSlot]
      exact hps q (List.mem_cons_of_mem _ hq)
    unfold drainHisto
    rw [ih hps' hnd', value.get_add _ hne, LensData.slot_setSlot hin]
    by_cases h : p' = p
    · simp [h, hnot]
    · simp [h]

/-- `lens_histo_read`. The caller's bounds are filled in, or have to be those of the lens. -/
def lensHistoRead (lens : LensData) (epoch : Fin 2) (value : OpticsHisto) :
    OpticsRet × OpticsHisto × LensData :=
  match lens with
  | .histo epochs buckets =>
    let lens := LensData.histo epochs buckets
    if value.buckets = [] then
      let r := drainHisto epoch lens.parts { value with buckets := buckets } lens
      (.ok, r.1, r.2)
    else if value.buckets ≠ buckets then (.err, value, lens)
    else
      let r := drainHisto epoch lens.parts value lens
      (.ok, r.1, r.2)
  | lens => (.err, value, lens)

/-- **A read of a histogram** with the caller's bounds empty or those of the lens: the parts in use
are added to the caller's and cleared. -/
theorem lensHistoRead_spec {epochs : Fin 2 → LensHistoEpoch} {buckets : List UInt64}
    {value : OpticsHisto} (h : value.buckets = [] ∨ value.buckets = buckets) (e : Fin 2) :
    ∃ value', lensHistoRead (.histo epochs buckets) e value =
        (.ok, value', (LensData.histo epochs buckets).clear e (LensData.histo epochs buckets).parts) ∧
      value'.buckets = buckets ∧
      ∀ p, value'.get p = value.get p +
        if p ∈ (LensData.histo epochs buckets).parts then (LensData.histo epochs buckets).slot e p
        else 0 := by
  have hps : ∀ p ∈ (LensData.histo epochs buckets).parts,
      p ∈ (LensData.histo epochs buckets).parts ∧ p ≠ .value :=
    fun p hp => ⟨hp, fun hc => LensData.value_notMem_histo epochs buckets (hc ▸ hp)⟩
  unfold lensHistoRead
  dsimp only
  by_cases h1 : value.buckets = []
  · rw [if_pos h1, drainHisto_lens]
    refine ⟨_, rfl, drainHisto_buckets .., fun p => ?_⟩
    refine (drainHisto_get hps (LensData.parts_nodup _) p).trans ?_
    cases p <;> rfl
  · have h2 : value.buckets = buckets := h.resolve_left h1
    rw [if_neg h1, if_neg (not_not.mpr h2), drainHisto_lens]
    exact ⟨_, rfl, (drainHisto_buckets ..).trans h2, drainHisto_get hps (LensData.parts_nodup _)⟩

end Optics.LensSlots
