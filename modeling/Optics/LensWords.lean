import Optics.RegistryData
import Optics.LensReads
import Optics.Utils.Formats

/-! # The data of lenses in memory

The structs behind the headers of lenses, which all consist of words of 64 bits, and the functions of
`lens_counter.c`, `lens_gauge.c`, `lens_dist.c`, `lens_histo.c` and `lens_quantile.c` as the loads and
stores they make of them. `dataAt` reads the value of a lens off its words.

`Use.simulates`: on that value each of the functions does what its namesake over values does, and it
writes into the data of its lens only. -/

namespace Optics.LensWords

open Optics.Base Optics.Lib.Bytes Optics.Lenses Optics.LensSlots Optics.Doubles
open Optics.LensDist Optics.LensQuantile Optics.LensReads Optics.RegistryData
open Optics.Utils.Random Optics.Utils.Formats

/-! ### Structs -/

/-- A word as a number of the program. -/
def num (n : ℕ) : UInt64 := .ofNat n

/-- `struct lens_dist_epoch`: 203 words, of which the first is the lock. -/
def distEpochOf (w : ℕ → ℕ) (e : Fin 2) : LensDistEpoch where
  lock := w (203 * e) ≠ 0
  n := num (w (203 * e + 1))
  max := punItod (num (w (203 * e + 2)))
  samples := Vector.ofFn fun i => punItod (num (w (203 * e + 3 + i)))

/-- `struct lens_histo_epoch`: 10 words. -/
def histoEpochOf (w : ℕ → ℕ) (e : Fin 2) : LensHistoEpoch where
  below := num (w (10 * e))
  above := num (w (10 * e + 1))
  counts i := num (w (10 * e + 2 + i))

/-- `histo->buckets`, behind the epochs, as far as `histo->buckets_len` says. -/
def bucketsOf (w : ℕ → ℕ) : List UInt64 := (List.range (w 29)).map fun i => num (w (20 + i))

/-- `struct lens_quantile`. -/
def quantileOf (w : ℕ → ℕ) : LensQuantile where
  targetQuantile := punItod (num (w 0))
  originalEstimate := punItod (num (w 1))
  adjustmentValue := punItod (num (w 2))
  multiplier := num (w 3)
  count e := num (w (4 + e))

/-- The value of a lens with these words. -/
def dataOf (w : ℕ → ℕ) : LensType → LensData
  | .counter => .counter fun e => num (w e)
  | .gauge => .gauge (num (w 0))
  | .dist => .dist (distEpochOf w)
  | .histo => .histo (histoEpochOf w) (bucketsOf w)
  | .quantile => .quantile (quantileOf w)

/-- The value of the lens, if it is one of type `t`. -/
def DataAt (m : Mem) (lens : ℕ) (t : LensType) (d : LensData) : Prop :=
  lensType m lens = t.code ∧ dataOf (dataWord m lens) t = d

/-! ### The functions -/

section Functions
variable {σ : Type} (fpu : Fpu) (rng : Rng σ) (m : Mem) (lens : ℕ) (epoch : Fin 2) (s : σ)

/-- `atomic_fetch_add`, of a word. -/
def fetchAdd (a : ℕ) (v : UInt64) : Mem := store64 m a (load64 m a + v.toNat)

/-- `lens_counter_inc`. -/
def lensCounterInc (value : UInt64) : Bool × Mem :=
  match lensSubPtr m lens .counter with
  | none => (false, m)
  | some counter => (true, fetchAdd m (counter + 8 * epoch) value)

/-- `lens_counter_read`. -/
def lensCounterRead (value : UInt64) : OpticsRet × UInt64 × Mem :=
  match lensSubPtr m lens .counter with
  | none => (.err, value, m)
  | some counter =>
    (.ok, value + num (load64 m (counter + 8 * epoch)), store64 m (counter + 8 * epoch) 0)

/-- `lens_gauge_set`, of the double with the bits `value`. -/
def lensGaugeSet (value : UInt64) : Bool × Mem :=
  match lensSubPtr m lens .gauge with
  | none => (false, m)
  | some gauge => (true, store64 m gauge value.toNat)

/-- `lens_gauge_read`. -/
def lensGaugeRead (value : UInt64) : OpticsRet × UInt64 :=
  match lensSubPtr m lens .gauge with
  | none => (.err, value)
  | some gauge => (.ok, num (load64 m gauge))

/-- The bounds of a histogram. -/
def histoBuckets (histo : ℕ) : List UInt64 :=
  (List.range (load64 m (histo + 232))).map fun i => num (load64 m (histo + 160 + 8 * i))

/-- Where a part of an epoch of a histogram lies in it. -/
def partWord (epoch : ℕ) : Part → ℕ
  | .value => 0
  | .below => 10 * epoch
  | .above => 10 * epoch + 1
  | .counts i => 10 * epoch + 2 + i

/-- `lens_histo_inc`. -/
def lensHistoInc (value : UInt64) : Outcome (Bool × Mem) :=
  match lensSubPtr m lens .histo with
  | none => .ok (false, m)
  | some histo =>
    match histoPart (histoBuckets m histo) (punItod value) with
    | none => .error .abort
    | some part => .ok (true, fetchAdd m (histo + 8 * partWord epoch part) 1)

/-- The exchanges of `lens_histo_read`. -/
def drainHisto (histo : ℕ) : List Part → OpticsHisto → Mem → OpticsHisto × Mem
  | [], value, m => (value, m)
  | p :: ps, value, m =>
    let a := histo + 8 * partWord epoch p
    drainHisto histo ps (value.add (num (load64 m a)) p) (store64 m a 0)

/-- The parts of an epoch that `lens_histo_read` visits. -/
def histoParts (bucketsLen : ℕ) : List Part :=
  .below :: .above :: ((List.finRange opticsHistoBucketsMax).take (bucketsLen - 1)).map .counts

/-- `lens_histo_read`. -/
def lensHistoRead (value : OpticsHisto) : OpticsRet × OpticsHisto × Mem :=
  match lensSubPtr m lens .histo with
  | none => (.err, value, m)
  | some histo =>
    let buckets := histoBuckets m histo
    let parts := histoParts (load64 m (histo + 232))
    if value.buckets = [] then
      let r := drainHisto epoch histo parts { value with buckets := buckets } m
      (.ok, r.1, r.2)
    else if value.buckets ≠ buckets then (.err, value, m)
    else
      let r := drainHisto epoch histo parts value m
      (.ok, r.1, r.2)

/-- The stores of `lens_dist_record` under the lock, and the release of the lock. The epoch at `dist`
is an array of words: the lock, `n`, `max` and the samples. -/
def distStores (m : Mem) (distHead dist i : ℕ) (value : UInt64) : Mem :=
  let m :=
    if i < opticsDistSamples then store64 m (distHead + 8 * (dist + 3 + i)) value.toNat else m
  let m := store64 m (distHead + 8 * (dist + 1)) (load64 m (distHead + 8 * (dist + 1)) + 1)
  let m :=
    if less (punItod (num (load64 m (distHead + 8 * (dist + 2))))) (punItod value) then
      store64 m (distHead + 8 * (dist + 2)) value.toNat
    else m
  store64 m (distHead + 8 * dist) 0

/-- `lens_dist_record`, of the double with the bits `value`; it waits for the lock. -/
def lensDistRecord (value : UInt64) : Outcome (Bool × Mem × σ) :=
  match lensSubPtr m lens .dist with
  | none => .ok (false, m, s)
  | some distHead =>
    let dist := 203 * (epoch : ℕ)
    if load64 m (distHead + 8 * dist) ≠ 0 then .error .diverge
    else
      let m := store64 m (distHead + 8 * dist) 1
      let n := num (load64 m (distHead + 8 * (dist + 1)))
      let (i, s) := recordIndex rng n s
      .ok (true, distStores m distHead dist i.toNat value, s)

/-- `lens_dist_read`. -/
def lensDistRead (value : OpticsDist) : Outcome (OpticsRet × OpticsDist × Mem × σ) :=
  match lensSubPtr m lens .dist with
  | none => .ok (.err, value, m, s)
  | some distHead =>
    let dist := 203 * (epoch : ℕ)
    if load64 m (distHead + 8 * dist) ≠ 0 then .ok (.busy, value, m, s)
    else do
      let samplesLen := num (load64 m (distHead + 8 * (dist + 1)))
      let value := value.mergeMax (punItod (num (load64 m (distHead + 8 * (dist + 2)))))
      let samples := (List.range (lensDistReservoirLen samplesLen)).map fun i =>
        punItod (num (load64 m (distHead + 8 * (dist + 3 + i))))
      let m := store64 m (distHead + 8 * (dist + 2)) 0
      let m := store64 m (distHead + 8 * (dist + 1)) 0
      let m := store64 m (distHead + 8 * dist) 0
      let (value, s) ← value.mergeSamples fpu rng samplesLen samples s
      .ok (.ok, value, m, s)

/-- `lens_quantile_update`, of the double with the bits `value`. -/
def lensQuantileUpdate (value : UInt64) : Outcome (Bool × Mem × σ) :=
  match lensSubPtr m lens .quantile with
  | none => .ok (false, m, s)
  | some quantile => do
    let q := quantileOf fun i => load64 m (quantile + 8 * i)
    let currentEstimate := calculateQuantile fpu q
    let (probabilityCheck, s) ← rng.genProb s q.targetQuantile
    let m :=
      if less (punItod value) currentEstimate then
        if !probabilityCheck then fetchAdd m (quantile + 8 * 3) (-1) else m
      else if probabilityCheck then fetchAdd m (quantile + 8 * 3) 1 else m
    .ok (true, fetchAdd m (quantile + 8 * (4 + epoch)) 1, s)

/-- `lens_quantile_read`. -/
def lensQuantileRead (value : OpticsQuantile) : Outcome (OpticsRet × OpticsQuantile × Mem × σ) :=
  match lensSubPtr m lens .quantile with
  | none => .ok (.err, value, m, s)
  | some quantile =>
    let q := quantileOf fun i => load64 m (quantile + 8 * i)
    let sample := calculateQuantile fpu q
    let count := num (load64 m (quantile + 8 * (4 + epoch)))
    let m := store64 m (quantile + 8 * (4 + epoch)) 0
    if same value.quantile (.fin 0) then
      .ok (.ok, ⟨q.targetQuantile, sample, count, count⟩, m, s)
    else if same value.quantile q.targetQuantile = false then .ok (.err, value, m, s)
    else do
      let (pick, s) ← pickSample fpu rng q count sample value s
      let value := if pick then { value with sample := sample, sampleCount := count } else value
      .ok (.ok, { value with count := value.count + count }, m, s)

end Functions

/-! ### What a store does to the value -/

/-- How much of the data of a lens the functions write: all but the bounds of a histogram. -/
def slotsLen : LensType → ℕ
  | .counter => 2 * 8
  | .gauge => 8
  | .dist => sizeofLensDist
  | .histo => 2 * sizeofLensHistoEpoch
  | .quantile => sizeofLensQuantile

@[simp] theorem num_w64 (n : ℕ) : num (w64 n) = num n := by
  unfold num w64
  exact UInt64.ofNat_mod_size

@[simp] theorem num_toNat (v : UInt64) : num v.toNat = v := UInt64.ofNat_toNat

@[simp] theorem num_zero : num 0 = 0 := rfl

theorem num_add (n : ℕ) (v : UInt64) : num (n + v.toNat) = num n + v := by
  unfold num
  rw [UInt64.ofNat_add, UInt64.ofNat_toNat]

section Stores
variable {m m' : Mem} {lens : ℕ} {t : LensType}

theorem lensSubPtr_eq (ht : lensType m lens = t.code) (t' : LensType) :
    lensSubPtr m lens t' = if t = t' then some (lens + sizeofLens) else none := by
  unfold lensSubPtr
  rw [ht]
  cases t <;> cases t' <;> simp [LensType.code]

/-- Stores into the data, one after the other, by the index of the word. -/
def storeAll (m : Mem) (lens : ℕ) (ws : List (ℕ × ℕ)) : Mem :=
  ws.foldl (fun m w => store64 m (lens + sizeofLens + 8 * w.1) w.2) m

/-- The words they leave. -/
def wordsAfter (w : ℕ → ℕ) (ws : List (ℕ × ℕ)) : ℕ → ℕ :=
  ws.foldl (fun w x => Function.update w x.1 (w64 x.2)) w

theorem storeAll_cons (x : ℕ × ℕ) (ws : List (ℕ × ℕ)) : storeAll m lens (x :: ws) =
    storeAll (store64 m (lens + sizeofLens + 8 * x.1) x.2) lens ws := rfl

theorem wordsAfter_cons (w : ℕ → ℕ) (x : ℕ × ℕ) (ws : List (ℕ × ℕ)) :
    wordsAfter w (x :: ws) = wordsAfter (Function.update w x.1 (w64 x.2)) ws := rfl

theorem dataWord_store (i v : ℕ) : dataWord (store64 m (lens + sizeofLens + 8 * i) v) lens =
    Function.update (dataWord m lens) i (w64 v) := by
  funext j
  rw [Function.update_apply]
  split_ifs with hj
  · subst hj
    exact load_store m 8 _ v
  · exact load_of_sameOff (sameOff_store _ _ _ _) (by omega)

theorem lensType_store (i v : ℕ) :
    lensType (store64 m (lens + sizeofLens + 8 * i) v) lens = lensType m lens := by
  have hs : sizeofLens = 64 := rfl
  exact load_of_sameOff (sameOff_store _ _ _ _) (Or.inl (by omega))

theorem storeAll_spec (ws : List (ℕ × ℕ)) (hws : ∀ x ∈ ws, 8 * x.1 + 8 ≤ slotsLen t) :
    lensType (storeAll m lens ws) lens = lensType m lens ∧
      dataWord (storeAll m lens ws) lens = wordsAfter (dataWord m lens) ws ∧
      SameOff m (storeAll m lens ws) (lens + sizeofLens) (slotsLen t) := by
  induction ws generalizing m with
  | nil => exact ⟨rfl, rfl, sameOff_refl _ _ _⟩
  | cons x ws ih =>
    obtain ⟨h1, h2, h3⟩ := ih (m := store64 m (lens + sizeofLens + 8 * x.1) x.2)
      fun y hy => hws y (List.mem_cons_of_mem _ hy)
    have hx := hws x List.mem_cons_self
    rw [storeAll_cons, wordsAfter_cons, ← dataWord_store]
    refine ⟨h1.trans (lensType_store _ _), h2, SameOff.trans ?_ h3⟩
    exact (sameOff_store m 8 _ x.2).mono (by omega) (by omega)

/-- The outcome of a function on memory is that of one on values, and it writes into the data of the
lens only. -/
inductive Simulates {σ α : Type} (m : Mem) (lens : ℕ) (t : LensType) :
    Outcome (α × Mem × σ) → Outcome (α × LensData × σ) → Prop
  | ok {r : α} {m' : Mem} {d : LensData} {s : σ} (hd : DataAt m' lens t d)
      (hm : SameOff m m' (lens + sizeofLens) (slotsLen t)) :
      Simulates m lens t (.ok (r, m', s)) (.ok (r, d, s))
  | error (e : Fault) : Simulates m lens t (.error e) (.error e)

variable {σ α : Type} {r : α} {s : σ}

theorem simulates_none {d : LensData} (h : DataAt m lens t d) :
    Simulates m lens t (.ok (r, m, s)) (.ok (r, d, s)) := .ok h (sameOff_refl _ _ _)

theorem simulates_bind {β : Type} {x : Outcome β} {f : β → Outcome (α × Mem × σ)}
    {g : β → Outcome (α × LensData × σ)} (h : ∀ b, Simulates m lens t (f b) (g b)) :
    Simulates m lens t (x.bind f) (x.bind g) := by
  cases x with
  | error e => exact .error e
  | ok b => exact h b

theorem simulates_bind_bind {β γ δ : Type} {x : Outcome β} {f : β → Outcome γ} {g : β → Outcome δ}
    {p : γ → Outcome (α × Mem × σ)} {q : δ → Outcome (α × LensData × σ)}
    (h : ∀ b, Simulates m lens t ((f b).bind p) ((g b).bind q)) :
    Simulates m lens t ((x.bind f).bind p) ((x.bind g).bind q) := by
  cases x with
  | error e => exact .error e
  | ok b => exact h b

theorem simulates_storeAll {d : LensData} (ht : lensType m lens = t.code) (ws : List (ℕ × ℕ))
    (hws : ∀ x ∈ ws, 8 * x.1 + 8 ≤ slotsLen t) (hd : dataOf (wordsAfter (dataWord m lens) ws) t = d) :
    Simulates m lens t (.ok (r, storeAll m lens ws, s)) (.ok (r, d, s)) := by
  obtain ⟨h1, h2, h3⟩ := storeAll_spec (m := m) ws hws
  exact .ok ⟨h1.trans ht, by rw [h2]; exact hd⟩ h3

end Stores

/-! ### One function after the other -/

section Simulations
variable {σ : Type} (fpu : Fpu) (rng : Rng σ) {m : Mem} {lens : ℕ} {t : LensType} {d : LensData}
  (e : Fin 2) (s : σ)

/-- A record, as an outcome. -/
def recorded {τ : Type} (x : Bool × τ) : Outcome (Bool × τ × σ) := .ok (x.1, x.2, s)

/-- A read, as an outcome. -/
def readOf {α τ : Type} (x : OpticsRet × α × τ) : Outcome ((OpticsRet × α) × τ × σ) :=
  .ok ((x.1, x.2.1), x.2.2, s)

/-- `lens_gauge_set` on values. -/
def gaugeSet (lens : LensData) (value : UInt64) : Bool × LensData :=
  match lens with
  | .gauge _ => (true, .gauge value)
  | lens => (false, lens)

theorem counter_update (w : ℕ → ℕ) (v : ℕ) : dataOf (Function.update w e v) .counter =
    .counter (Function.update (fun e => num (w e)) e (num v)) := by
  refine congrArg LensData.counter (funext fun e' => ?_)
  rw [Function.update_apply, Function.update_apply]
  by_cases he : e' = e
  · simp [he]
  · rw [if_neg he, if_neg (fun hc => he (Fin.ext hc))]

theorem lensCounterInc_sim (h : DataAt m lens t d) (v : UInt64) : Simulates m lens t
    (recorded s (lensCounterInc m lens e v)) (recorded s (LensSlots.lensCounterInc d e v)) := by
  obtain ⟨ht, rfl⟩ := h
  unfold lensCounterInc
  rw [lensSubPtr_eq ht]
  cases t with
  | counter =>
    refine simulates_storeAll ht [((e : ℕ), load64 m (lens + sizeofLens + 8 * e) + v.toNat)] ?_ ?_
    · simp [slotsLen]
      omega
    · show dataOf (Function.update _ _ _) .counter = _
      rw [counter_update, num_w64, num_add]
      rfl
  | _ => exact simulates_none ⟨ht, rfl⟩

theorem lensCounterRead_sim (h : DataAt m lens t d) (v : UInt64) : Simulates m lens t
    (readOf s (lensCounterRead m lens e v)) (readOf s (LensSlots.lensCounterRead d e v)) := by
  obtain ⟨ht, rfl⟩ := h
  unfold lensCounterRead
  rw [lensSubPtr_eq ht]
  cases t with
  | counter =>
    refine simulates_storeAll ht [((e : ℕ), 0)] ?_ ?_
    · simp [slotsLen]
      omega
    · show dataOf (Function.update _ _ _) .counter = _
      rw [counter_update]
      rfl
  | _ => exact simulates_none ⟨ht, rfl⟩

theorem lensGaugeSet_sim (h : DataAt m lens t d) (v : UInt64) : Simulates m lens t
    (recorded s (lensGaugeSet m lens v)) (recorded s (gaugeSet d v)) := by
  obtain ⟨ht, rfl⟩ := h
  unfold lensGaugeSet
  rw [lensSubPtr_eq ht]
  cases t with
  | gauge =>
    refine simulates_storeAll ht [(0, v.toNat)] (by simp [slotsLen]) ?_
    simp [wordsAfter, dataOf, gaugeSet]
  | _ => exact simulates_none ⟨ht, rfl⟩

theorem lensGaugeRead_eq (h : DataAt m lens t d) (v : UInt64) :
    LensSlots.lensGaugeRead d v = ((lensGaugeRead m lens v).1, (lensGaugeRead m lens v).2, d) := by
  obtain ⟨ht, rfl⟩ := h
  unfold lensGaugeRead
  rw [lensSubPtr_eq ht]
  cases t <;> rfl

/-! ### Histograms -/

theorem partWord_lt (p : Part) : partWord e p < 20 := by
  unfold partWord
  have he := e.isLt
  cases p with
  | counts i => have hi : (i : ℕ) < 8 := i.isLt; dsimp only; omega
  | _ => dsimp only; omega

theorem partWord_inj {e e' : Fin 2} {p p' : Part} (hp : p ≠ .value) (hp' : p' ≠ .value)
    (h : partWord e p = partWord e' p') : e = e' ∧ p = p' := by
  unfold partWord at h
  have he := e.isLt
  have he' := e'.isLt
  cases p <;> cases p' <;>
    simp only [ne_eq, reduceCtorEq, not_true_eq_false, not_false_eq_true] at hp hp' h ⊢
  case counts.counts i j =>
    have hi : (i : ℕ) < 8 := i.isLt
    have hj : (j : ℕ) < 8 := j.isLt
    simp only [Fin.ext_iff, Part.counts.injEq]
    omega
  case below.counts j => have hj : (j : ℕ) < 8 := j.isLt; omega
  case above.counts j => have hj : (j : ℕ) < 8 := j.isLt; omega
  case counts.below i => have hi : (i : ℕ) < 8 := i.isLt; omega
  case counts.above i => have hi : (i : ℕ) < 8 := i.isLt; omega
  all_goals simp only [Fin.ext_iff, and_true, and_false]; omega

theorem histoEpochOf_get (w : ℕ → ℕ) {p : Part} (hp : p ≠ .value) :
    (histoEpochOf w e).get p = num (w (partWord e p)) := by
  cases p <;> first | rfl | exact absurd rfl hp

theorem histoEpoch_ext {h h' : LensHistoEpoch} (hg : ∀ p ≠ Part.value, h.get p = h'.get p) :
    h = h' := by
  have h1 := hg .below (by simp)
  have h2 := hg .above (by simp)
  have h3 : h.counts = h'.counts := funext fun i => hg (.counts i) (by simp)
  cases h
  cases h'
  simp_all [LensHistoEpoch.get]

theorem histo_update (w : ℕ → ℕ) {p : Part} (hp : p ≠ .value) (v : ℕ) :
    dataOf (Function.update w (partWord e p) v) .histo =
      (dataOf w .histo).setSlot e p (num v) := by
  have hlt := partWord_lt e p
  have hb : bucketsOf (Function.update w (partWord e p) v) = bucketsOf w := by
    unfold bucketsOf
    rw [Function.update_of_ne (by omega)]
    exact List.map_congr_left fun i _ => by rw [Function.update_of_ne (by omega)]
  have he : histoEpochOf (Function.update w (partWord e p) v) =
      Function.update (histoEpochOf w) e ((histoEpochOf w e).set (num v) p) := by
    refine funext fun e' => histoEpoch_ext fun q hq => ?_
    rw [histoEpochOf_get e' _ hq, Function.update_apply, Function.update_apply]
    by_cases he : e' = e
    · subst he
      rw [if_pos rfl, LensHistoEpoch.get_set _ _ hp, histoEpochOf_get e' w hq]
      by_cases hqp : q = p
      · rw [hqp, if_pos rfl, if_pos rfl]
      · rw [if_neg fun hc => hqp (partWord_inj hq hp hc).2, if_neg hqp]
    · rw [if_neg he, histoEpochOf_get e' w hq, if_neg fun hc => he (partWord_inj hq hp hc).1]
  show LensData.histo _ _ = LensData.histo _ _
  rw [he, hb]

theorem histoBuckets_eq (m : Mem) (lens : ℕ) :
    histoBuckets m (lens + sizeofLens) = bucketsOf (dataWord m lens) := by
  unfold histoBuckets bucketsOf dataWord
  refine List.map_congr_left fun i _ => ?_
  rw [show lens + sizeofLens + 160 + 8 * i = lens + sizeofLens + 8 * (20 + i) by omega]

theorem histoParts_eq (w : ℕ → ℕ) : histoParts (w 29) = (dataOf w .histo).parts := by
  show _ = Part.below :: Part.above :: _
  unfold histoParts bucketsOf
  rw [List.length_map, List.length_range]

theorem histo_slot (w : ℕ → ℕ) {p : Part} (hp : p ≠ .value) :
    (dataOf w .histo).slot e p = num (w (partWord e p)) := histoEpochOf_get e w hp

theorem lensHistoInc_sim (h : DataAt m lens t d) (v : UInt64) : Simulates m lens t
    ((lensHistoInc m lens e v).bind (recorded s))
    ((LensSlots.lensHistoInc d e (punItod v)).bind (recorded s)) := by
  obtain ⟨ht, rfl⟩ := h
  unfold lensHistoInc
  rw [lensSubPtr_eq ht]
  cases t with
  | histo =>
    simp only [if_true]
    rw [histoBuckets_eq]
    show Simulates m lens .histo _ (Except.bind (match histoPart (bucketsOf (dataWord m lens))
      (punItod v) with
      | none => _
      | some part => _) _)
    rcases hp : histoPart (bucketsOf (dataWord m lens)) (punItod v) with _ | p
    · exact .error _
    · have hne : p ≠ .value := fun hc =>
        LensData.value_notMem_histo _ _ (hc ▸ histoPart_mem hp (histoEpochOf (dataWord m lens)))
      have hlt := partWord_lt e p
      have hl : slotsLen .histo = 160 := rfl
      refine simulates_storeAll ht [(partWord e p, load64 m (lens + sizeofLens + 8 * partWord e p) +
        (1 : UInt64).toNat)] ?_ ?_
      · simp
        omega
      · show dataOf (Function.update _ _ _) .histo = _
        rw [histo_update e _ hne, num_w64, num_add]
        have hslot := histo_slot e (dataWord m lens) hne
        show _ = LensData.setSlot (dataOf (dataWord m lens) .histo) e p
          ((dataOf (dataWord m lens) .histo).slot e p + 1)
        rw [hslot]
        rfl
  | _ => exact simulates_none ⟨ht, rfl⟩

/-- The loop of exchanges, at the words and at the parts. -/
theorem drainHisto_sim (ps : List Part) (hps : ∀ p ∈ ps, p ≠ .value) (value : OpticsHisto) {m : Mem}
    (ht : lensType m lens = LensType.histo.code) :
    let r := drainHisto e (lens + sizeofLens) ps value m
    let r' := LensSlots.drainHisto e ps value (dataOf (dataWord m lens) .histo)
    r.1 = r'.1 ∧ DataAt r.2 lens .histo r'.2 ∧ SameOff m r.2 (lens + sizeofLens) (slotsLen .histo) := by
  induction ps generalizing value m with
  | nil => exact ⟨rfl, ⟨ht, rfl⟩, sameOff_refl _ _ _⟩
  | cons p ps ih =>
    have hp := hps p List.mem_cons_self
    have hlt := partWord_lt e p
    have hl : slotsLen .histo = 160 := rfl
    obtain ⟨h1, h2, h3⟩ := ih (fun q hq => hps q (List.mem_cons_of_mem _ hq))
      (value.add (num (dataWord m lens (partWord e p))) p)
      (m := store64 m (lens + sizeofLens + 8 * partWord e p) 0) ((lensType_store _ _).trans ht)
    rw [dataWord_store, histo_update e _ hp] at h1 h2
    unfold drainHisto LensSlots.drainHisto
    rw [histo_slot e _ hp]
    refine ⟨h1, h2, SameOff.trans ?_ h3⟩
    exact (sameOff_store m 8 _ 0).mono (by omega) (by omega)

theorem lensHistoRead_dataOf (w : ℕ → ℕ) (value : OpticsHisto) :
    LensSlots.lensHistoRead (dataOf w .histo) e value =
      if value.buckets = [] then
        let r := LensSlots.drainHisto e (dataOf w .histo).parts
          { value with buckets := bucketsOf w } (dataOf w .histo)
        (.ok, r.1, r.2)
      else if value.buckets ≠ bucketsOf w then (.err, value, dataOf w .histo)
      else
        let r := LensSlots.drainHisto e (dataOf w .histo).parts value (dataOf w .histo)
        (.ok, r.1, r.2) := rfl

theorem simulates_drain {r : OpticsHisto × Mem} {r' : OpticsHisto × LensData}
    (h : r.1 = r'.1 ∧ DataAt r.2 lens t r'.2 ∧ SameOff m r.2 (lens + sizeofLens) (slotsLen t)) :
    Simulates m lens t (readOf s (.ok, r.1, r.2)) (readOf s (.ok, r'.1, r'.2)) := by
  rw [h.1]
  exact .ok h.2.1 h.2.2

theorem lensHistoRead_sim (h : DataAt m lens t d) (value : OpticsHisto) : Simulates m lens t
    (readOf s (lensHistoRead m lens e value)) (readOf s (LensSlots.lensHistoRead d e value)) := by
  obtain ⟨ht, rfl⟩ := h
  unfold lensHistoRead
  rw [lensSubPtr_eq ht]
  cases t with
  | histo =>
    have hparts : ∀ p ∈ histoParts (dataWord m lens 29), p ≠ .value := by
      intro p hp hc
      rw [histoParts_eq, hc] at hp
      exact LensData.value_notMem_histo _ _ hp
    have hdrain := fun value => drainHisto_sim e _ hparts value ht
    rw [histoParts_eq] at hdrain
    simp only [if_true]
    rw [histoBuckets_eq, show load64 m (lens + sizeofLens + 232) = dataWord m lens 29 from rfl,
      histoParts_eq]
    rw [lensHistoRead_dataOf]
    by_cases h1 : value.buckets = []
    · rw [if_pos h1, if_pos h1]
      exact simulates_drain s (hdrain { value with buckets := bucketsOf (dataWord m lens) })
    rw [if_neg h1, if_neg h1]
    by_cases h2 : value.buckets ≠ bucketsOf (dataWord m lens)
    · rw [if_pos h2, if_pos h2]
      exact simulates_none ⟨ht, rfl⟩
    · rw [if_neg h2, if_neg h2]
      exact simulates_drain s (hdrain value)
  | _ => exact simulates_none ⟨ht, rfl⟩

/-! ### Distributions -/

theorem distEpoch_ext {x y : LensDistEpoch} (hlock : x.lock = y.lock) (hn : x.n = y.n)
    (hmax : x.max = y.max) (hs : ∀ i (h : i < opticsDistSamples), x.samples[i] = y.samples[i]) :
    x = y := by
  have h : x.samples = y.samples := Vector.ext hs
  cases x
  cases y
  simp_all

theorem distEpochOf_congr {w w' : ℕ → ℕ} {e : Fin 2}
    (h : ∀ j, 203 * (e : ℕ) ≤ j → j < 203 * (e : ℕ) + 203 → w' j = w j) : distEpochOf w' e = distEpochOf w e := by
  have h1 := h (203 * e) (by omega) (by omega)
  have h2 := h (203 * e + 1) (by omega) (by omega)
  have h3 := h (203 * e + 2) (by omega) (by omega)
  refine distEpoch_ext ?_ ?_ ?_ fun i hi => ?_
  · simp [distEpochOf, h1]
  · simp [distEpochOf, h2]
  · simp [distEpochOf, h3]
  · have hi : i < 200 := hi
    simp [distEpochOf, h (203 * e + 3 + i) (by omega) (by omega)]

theorem dist_update {w w' : ℕ → ℕ} {dist : LensDistEpoch} (he : distEpochOf w' e = dist)
    (h : ∀ j, j < 203 * (e : ℕ) ∨ 203 * (e : ℕ) + 203 ≤ j → w' j = w j) :
    dataOf w' .dist = .dist (Function.update (distEpochOf w) e dist) := by
  refine congrArg LensData.dist (funext fun e' => ?_)
  rw [Function.update_apply]
  split_ifs with hee
  · rw [hee, he]
  · have hne : (e' : ℕ) ≠ e := fun hc => hee (Fin.ext hc)
    exact distEpochOf_congr fun j h1 h2 => h j (by omega)

/-- The stores of a record into a slot, by index. -/
def recordWords (w : ℕ → ℕ) (i v : ℕ) (big : Bool) : List (ℕ × ℕ) :=
  let dist := 203 * (e : ℕ)
  (dist, 1) :: ((if i < opticsDistSamples then [(dist + 3 + i, v)] else []) ++
    (dist + 1, w (dist + 1) + 1) :: ((if big then [(dist + 2, v)] else []) ++ [(dist, 0)]))

theorem recordWords_apply (w : ℕ → ℕ) (i v : ℕ) (big : Bool) (j : ℕ) :
    wordsAfter w (recordWords e w i v big) j =
      if j = 203 * e then 0 else if j = 203 * e + 1 then w64 (w (203 * e + 1) + 1)
      else if j = 203 * e + 2 then (if big then w64 v else w j)
      else if i < opticsDistSamples ∧ j = 203 * e + 3 + i then w64 v else w j := by
  unfold wordsAfter recordWords
  by_cases hi : i < opticsDistSamples
  · cases big <;> simp only [hi, if_true, if_false, List.foldl_cons, List.foldl_append,
      List.foldl_nil, List.nil_append, Function.update_apply, true_and, Bool.false_eq_true] <;>
      split_ifs <;> first | rfl | omega
  · cases big <;> simp only [hi, if_true, if_false, List.foldl_cons, List.foldl_append,
      List.foldl_nil, List.nil_append, Function.update_apply, false_and, Bool.false_eq_true] <;>
      split_ifs <;> first | rfl | omega

theorem distEpochOf_record (w : ℕ → ℕ) (i : ℕ) (v : UInt64) (big : Bool) (hw : w (203 * e) = 0) :
    distEpochOf (wordsAfter w (recordWords e w i v.toNat big)) e =
      { distEpochOf w e with
        n := (distEpochOf w e).n + 1
        max := if big then punItod v else (distEpochOf w e).max
        samples := if h : i < opticsDistSamples then (distEpochOf w e).samples.set i (punItod v) h
          else (distEpochOf w e).samples } := by
  have hone : num (w (203 * e + 1) + 1) = num (w (203 * e + 1)) + 1 := num_add _ 1
  refine distEpoch_ext ?_ ?_ ?_ fun j hj => ?_
  · simp [distEpochOf, recordWords_apply, hw]
  · simp [distEpochOf, recordWords_apply, hone]
  · cases big <;> simp [distEpochOf, recordWords_apply]
  · have hj : j < 200 := hj
    by_cases hi : i < opticsDistSamples
    · have hji : 203 * (e : ℕ) + 3 + j = 203 * e + 3 + i ↔ i = j := by omega
      simp only [distEpochOf, Vector.getElem_ofFn, recordWords_apply, hi, true_and, hji, dif_pos,
        Vector.getElem_set]
      rw [if_neg (by omega), if_neg (by omega), if_neg (by omega)]
      split_ifs <;> simp
    · simp only [distEpochOf, Vector.getElem_ofFn, recordWords_apply, hi, false_and, dif_neg,
        not_false_eq_true, if_false]
      rw [if_neg (by omega), if_neg (by omega), if_neg (by omega)]

theorem recordWords_lt (w : ℕ → ℕ) (i v : ℕ) (big : Bool) :
    ∀ x ∈ recordWords e w i v big, 8 * x.1 + 8 ≤ slotsLen .dist := by
  have hl : slotsLen .dist = 3248 := rfl
  have h200 : opticsDistSamples = 200 := rfl
  have he := e.isLt
  intro x hx
  unfold recordWords at hx
  simp only [List.mem_cons, List.mem_append, List.mem_ite_nil_right, List.not_mem_nil,
    or_false] at hx
  rcases hx with rfl | ⟨hi, rfl⟩ | rfl | ⟨-, rfl⟩ | rfl <;> dsimp only <;> omega

theorem lensDistRecord_dataOf (w : ℕ → ℕ) (v : Double) :
    LensDist.lensDistRecord rng (dataOf w .dist) e v s =
      if (distEpochOf w e).lock then .error .diverge
      else .ok (true, .dist (Function.update (distEpochOf w) e
        (recordBody rng (distEpochOf w e) v s).1), (recordBody rng (distEpochOf w e) v s).2) := rfl

theorem distStores_eq (m : Mem) (lens i : ℕ) (v : UInt64) :
    distStores (store64 m (lens + sizeofLens + 8 * (203 * (e : ℕ))) 1) (lens + sizeofLens)
        (203 * (e : ℕ)) i v =
      storeAll m lens (recordWords e (dataWord m lens) i v.toNat
        (less (distEpochOf (dataWord m lens) e).max (punItod v))) := by
  set dist := 203 * (e : ℕ) with hdist
  set m1 := store64 m (lens + sizeofLens + 8 * dist) 1 with hm1
  set m2 := if i < opticsDistSamples then
    store64 m1 (lens + sizeofLens + 8 * (dist + 3 + i)) v.toNat else m1 with hm2
  have hw2 : ∀ j, dist < j → j < dist + 3 → dataWord m2 lens j = dataWord m lens j := by
    intro j h1 h2
    have hw1 : dataWord m1 lens j = dataWord m lens j := by
      rw [hm1, dataWord_store, Function.update_of_ne (by omega)]
    rw [← hw1, hm2]
    split_ifs
    · rw [dataWord_store, Function.update_of_ne (by omega)]
    · rfl
  have hn : load64 m2 (lens + sizeofLens + 8 * (dist + 1)) = dataWord m lens (dist + 1) :=
    hw2 _ (by omega) (by omega)
  have hmax : load64 (store64 m2 (lens + sizeofLens + 8 * (dist + 1)) (dataWord m lens (dist + 1) + 1))
      (lens + sizeofLens + 8 * (dist + 2)) = dataWord m lens (dist + 2) := by
    refine Eq.trans ?_ (hw2 _ (by omega) (by omega))
    show dataWord _ lens (dist + 2) = _
    rw [dataWord_store, Function.update_of_ne (by omega)]
  unfold distStores
  simp only [← hm2]
  rw [hn, hmax, hm2, hm1]
  unfold storeAll recordWords
  have hbig : (distEpochOf (dataWord m lens) e).max = punItod (num (dataWord m lens (dist + 2))) := rfl
  rw [hbig]
  by_cases hi : i < opticsDistSamples <;>
    rcases hb : less (punItod (num (dataWord m lens (dist + 2)))) (punItod v) with _ | _ <;>
    simp [hi, hdist]

theorem lensDistRecord_sim (h : DataAt m lens t d) (v : UInt64) : Simulates m lens t
    (lensDistRecord rng m lens e s v) (LensDist.lensDistRecord rng d e (punItod v) s) := by
  obtain ⟨ht, rfl⟩ := h
  unfold lensDistRecord
  rw [lensSubPtr_eq ht]
  cases t with
  | dist =>
    rw [lensDistRecord_dataOf]
    simp only [if_true]
    by_cases hw : load64 m (lens + sizeofLens + 8 * (203 * (e : ℕ))) = 0
    · have hw' : dataWord m lens (203 * e) = 0 := hw
      have hlock : ¬ (distEpochOf (dataWord m lens) e).lock = true := by simp [distEpochOf, hw']
      have hn : load64 (store64 m (lens + sizeofLens + 8 * (203 * (e : ℕ))) 1)
          (lens + sizeofLens + 8 * (203 * (e : ℕ) + 1)) = dataWord m lens (203 * e + 1) := by
        show dataWord _ lens (203 * (e : ℕ) + 1) = _
        rw [dataWord_store, Function.update_of_ne (by omega)]
      rw [if_neg (not_not.mpr hw), if_neg hlock, hn]
      unfold recordBody
      rw [show (distEpochOf (dataWord m lens) e).n = num (dataWord m lens (203 * e + 1)) from rfl]
      rcases hi : recordIndex rng (num (dataWord m lens (203 * e + 1))) s with ⟨i, s'⟩
      dsimp only
      rw [distStores_eq]
      refine simulates_storeAll ht _ (recordWords_lt e _ _ _ _) (dist_update e ?_ fun j hj => ?_)
      · rw [distEpochOf_record e _ _ _ _ hw']
        rfl
      · rw [recordWords_apply, if_neg (by omega), if_neg (by omega), if_neg (by omega), if_neg]
        rintro ⟨hi', rfl⟩
        have h200 : i.toNat < 200 := hi'
        omega
    · have hw' : ¬ dataWord m lens (203 * e) = 0 := hw
      have hlock : (distEpochOf (dataWord m lens) e).lock = true := by simp [distEpochOf, hw']
      rw [if_pos hw, if_pos hlock]
      exact .error _
  | _ => exact simulates_none ⟨ht, rfl⟩

theorem punItod_zero : punItod 0 = .fin 0 := by
  unfold punItod
  simp

/-- The stores of a read into a slot. -/
def readWords : List (ℕ × ℕ) := [(203 * (e : ℕ) + 2, 0), (203 * (e : ℕ) + 1, 0), (203 * (e : ℕ), 0)]

theorem readWords_apply (w : ℕ → ℕ) (j : ℕ) : wordsAfter w (readWords e) j =
    if j = 203 * e ∨ j = 203 * e + 1 ∨ j = 203 * e + 2 then 0 else w j := by
  unfold wordsAfter readWords
  simp only [List.foldl_cons, List.foldl_nil, Function.update_apply]
  split_ifs <;> first | rfl | omega

theorem distEpochOf_read (w : ℕ → ℕ) :
    distEpochOf (wordsAfter w (readWords e)) e = slockUnlock (resetSlot (distEpochOf w e)) := by
  refine distEpoch_ext ?_ ?_ ?_ fun j hj => ?_
  · simp [distEpochOf, readWords_apply, slockUnlock]
  · simp [distEpochOf, readWords_apply, slockUnlock, resetSlot]
  · simp [distEpochOf, readWords_apply, slockUnlock, resetSlot, punItod_zero]
  · simp only [distEpochOf, readWords_apply, slockUnlock, resetSlot, Vector.getElem_ofFn]
    rw [if_neg (by omega)]

theorem copySlot_dataOf (w : ℕ → ℕ) : copySlot (distEpochOf w e) = (num (w (203 * e + 1)),
    (List.range (lensDistReservoirLen (num (w (203 * e + 1))))).map fun i =>
      punItod (num (w (203 * e + 3 + i)))) := by
  unfold copySlot
  refine Prod.ext rfl (List.ext_getElem ?_ fun i h1 h2 => ?_)
  · simp [distEpochOf, lensDistReservoirLen]
  · simp [distEpochOf]

theorem lensDistRead_dataOf (w : ℕ → ℕ) (value : OpticsDist) :
    LensDist.lensDistRead fpu rng (dataOf w .dist) e value s =
      if (distEpochOf w e).lock then .ok (.busy, value, dataOf w .dist, s)
      else ((value.mergeMax (distEpochOf w e).max).mergeSamples fpu rng
          (copySlot (distEpochOf w e)).1 (copySlot (distEpochOf w e)).2 s).bind fun r =>
        .ok (.ok, r.1, .dist (Function.update (distEpochOf w) e
          (slockUnlock (resetSlot (distEpochOf w e)))), r.2) := rfl

/-- A read with its result in one pair. -/
def paired {α τ : Type} (x : OpticsRet × α × τ × σ) : Outcome ((OpticsRet × α) × τ × σ) :=
  .ok ((x.1, x.2.1), x.2.2.1, x.2.2.2)

theorem lensDistRead_sim (h : DataAt m lens t d) (value : OpticsDist) : Simulates m lens t
    ((lensDistRead fpu rng m lens e s value).bind paired)
    ((LensDist.lensDistRead fpu rng d e value s).bind paired) := by
  obtain ⟨ht, rfl⟩ := h
  unfold lensDistRead
  rw [lensSubPtr_eq ht]
  cases t with
  | dist =>
    rw [lensDistRead_dataOf, copySlot_dataOf]
    simp only [if_true]
    by_cases hw : load64 m (lens + sizeofLens + 8 * (203 * (e : ℕ))) = 0
    · have hw' : dataWord m lens (203 * e) = 0 := hw
      have hlock : ¬ (distEpochOf (dataWord m lens) e).lock = true := by simp [distEpochOf, hw']
      rw [if_neg (not_not.mpr hw), if_neg hlock]
      -- what is merged is the same on both sides
      refine simulates_bind_bind fun r => ?_
      refine simulates_storeAll ht (readWords e) ?_ (dist_update e (distEpochOf_read e _) ?_)
      · have hl : slotsLen .dist = 3248 := rfl
        have he := e.isLt
        unfold readWords
        simp
        omega
      · intro j hj
        rw [readWords_apply, if_neg (by omega)]
    · have hw' : ¬ dataWord m lens (203 * e) = 0 := hw
      have hlock : (distEpochOf (dataWord m lens) e).lock = true := by simp [distEpochOf, hw']
      rw [if_pos hw, if_pos hlock]
      exact simulates_none ⟨ht, rfl⟩
  | _ => exact simulates_none ⟨ht, rfl⟩

/-! ### Quantiles -/

theorem quantileOf_multiplier (w : ℕ → ℕ) (v : ℕ) :
    quantileOf (Function.update w 3 v) = { quantileOf w with multiplier := num v } := by
  unfold quantileOf
  simp only [Function.update_self, LensQuantile.mk.injEq, true_and]
  refine ⟨?_, ?_, ?_, funext fun e => ?_⟩ <;> rw [Function.update_of_ne (by omega)]

theorem quantileOf_count (w : ℕ → ℕ) (v : ℕ) : quantileOf (Function.update w (4 + e) v) =
    { quantileOf w with count := Function.update (quantileOf w).count e (num v) } := by
  have hc : (fun e' : Fin 2 => num (Function.update w (4 + (e : ℕ)) v (4 + e'))) =
      Function.update (fun e' : Fin 2 => num (w (4 + e'))) e (num v) := by
    funext e'
    rw [Function.update_apply, Function.update_apply]
    by_cases he : e' = e
    · simp [he]
    · rw [if_neg he, if_neg fun hc => he (Fin.ext (by omega))]
  unfold quantileOf
  rw [hc]
  simp only [LensQuantile.mk.injEq, and_true]
  refine ⟨?_, ?_, ?_, ?_⟩ <;> rw [Function.update_of_ne (by omega)]

theorem quantile_step (w : ℕ → ℕ) (v : UInt64) :
    dataOf (wordsAfter w [(3, w 3 + v.toNat), (4 + (e : ℕ), w (4 + e) + (1 : UInt64).toNat)])
      .quantile = .quantile { quantileOf w with
        multiplier := (quantileOf w).multiplier + v
        count := Function.update (quantileOf w).count e ((quantileOf w).count e + 1) } := by
  show LensData.quantile (quantileOf (Function.update (Function.update w 3 _) _ _)) = _
  rw [quantileOf_count, quantileOf_multiplier, num_w64, num_w64, num_add, num_add]
  rfl

theorem quantile_count (w : ℕ → ℕ) :
    dataOf (wordsAfter w [(4 + (e : ℕ), w (4 + e) + (1 : UInt64).toNat)]) .quantile =
      .quantile { quantileOf w with
        count := Function.update (quantileOf w).count e ((quantileOf w).count e + 1) } := by
  show LensData.quantile (quantileOf (Function.update w _ _)) = _
  rw [quantileOf_count, num_w64, num_add]
  rfl

theorem quantile_stores (v : UInt64) :
    fetchAdd (fetchAdd m (lens + sizeofLens + 8 * 3) v) (lens + sizeofLens + 8 * (4 + (e : ℕ))) 1 =
      storeAll m lens [(3, dataWord m lens 3 + v.toNat),
        (4 + (e : ℕ), dataWord m lens (4 + e) + (1 : UInt64).toNat)] := by
  have h : load64 (fetchAdd m (lens + sizeofLens + 8 * 3) v) (lens + sizeofLens + 8 * (4 + (e : ℕ))) =
      dataWord m lens (4 + e) := by
    show dataWord (store64 m _ _) lens (4 + (e : ℕ)) = _
    rw [dataWord_store, Function.update_of_ne (by omega)]
  unfold fetchAdd at h ⊢
  rw [h]
  rfl

theorem simulates_step {r : Bool} (ht : lensType m lens = LensType.quantile.code) (v : UInt64) :
    Simulates m lens .quantile
      (.ok (r, fetchAdd (fetchAdd m (lens + sizeofLens + 8 * 3) v)
        (lens + sizeofLens + 8 * (4 + (e : ℕ))) 1, s))
      (.ok (r, .quantile { quantileOf (dataWord m lens) with
        multiplier := (quantileOf (dataWord m lens)).multiplier + v
        count := Function.update (quantileOf (dataWord m lens)).count e
          ((quantileOf (dataWord m lens)).count e + 1) }, s)) := by
  have hl : slotsLen .quantile = 48 := rfl
  have he := e.isLt
  rw [quantile_stores]
  refine simulates_storeAll ht _ ?_ (quantile_step e _ v)
  simp
  omega

theorem simulates_count {r : Bool} (ht : lensType m lens = LensType.quantile.code) :
    Simulates m lens .quantile
      (.ok (r, fetchAdd m (lens + sizeofLens + 8 * (4 + (e : ℕ))) 1, s))
      (.ok (r, .quantile { quantileOf (dataWord m lens) with
        count := Function.update (quantileOf (dataWord m lens)).count e
          ((quantileOf (dataWord m lens)).count e + 1) }, s)) := by
  have hl : slotsLen .quantile = 48 := rfl
  have he := e.isLt
  refine simulates_storeAll ht [(4 + (e : ℕ), dataWord m lens (4 + e) + (1 : UInt64).toNat)] ?_
    (quantile_count e _)
  simp
  omega

theorem lensQuantileUpdate_dataOf (w : ℕ → ℕ) (v : Double) :
    LensQuantile.lensQuantileUpdate fpu rng (dataOf w .quantile) e v s =
      (rng.genProb s (quantileOf w).targetQuantile).bind fun r =>
        .ok (true, .quantile { quantileOf w with
          multiplier :=
            if less v (calculateQuantile fpu (quantileOf w)) then
              if !r.1 then (quantileOf w).multiplier - 1 else (quantileOf w).multiplier
            else if r.1 then (quantileOf w).multiplier + 1 else (quantileOf w).multiplier
          count := Function.update (quantileOf w).count e ((quantileOf w).count e + 1) }, r.2) := rfl

theorem lensQuantileUpdate_sim (h : DataAt m lens t d) (v : UInt64) : Simulates m lens t
    (lensQuantileUpdate fpu rng m lens e s v)
    (LensQuantile.lensQuantileUpdate fpu rng d e (punItod v) s) := by
  obtain ⟨ht, rfl⟩ := h
  unfold lensQuantileUpdate
  rw [lensSubPtr_eq ht]
  cases t with
  | quantile =>
    rw [lensQuantileUpdate_dataOf]
    simp only [if_true]
    refine simulates_bind fun r => ?_
    obtain ⟨check, s'⟩ := r
    dsimp only
    rw [show (quantileOf fun i => load64 m (lens + sizeofLens + 8 * i)) =
      quantileOf (dataWord m lens) from rfl]
    split_ifs
    · rw [sub_eq_add_neg]
      exact simulates_step e s' ht (-1)
    · exact simulates_count e s' ht
    · exact simulates_step e s' ht 1
    · exact simulates_count e s' ht
  | _ => exact simulates_none ⟨ht, rfl⟩

theorem lensQuantileRead_dataOf (w : ℕ → ℕ) (value : OpticsQuantile) :
    LensQuantile.lensQuantileRead fpu rng (dataOf w .quantile) e value s =
      (let sample := calculateQuantile fpu (quantileOf w)
      let count := (quantileOf w).count e
      let lens := LensData.quantile { quantileOf w with
        count := Function.update (quantileOf w).count e 0 }
      if same value.quantile (.fin 0) then
        .ok (.ok, ⟨(quantileOf w).targetQuantile, sample, count, count⟩, lens, s)
      else if same value.quantile (quantileOf w).targetQuantile = false then
        .ok (.err, value, lens, s)
      else (pickSample fpu rng (quantileOf w) count sample value s).bind fun r =>
        let value := if r.1 then { value with sample := sample, sampleCount := count } else value
        .ok (.ok, { value with count := value.count + count }, lens, r.2)) := rfl

theorem simulates_exchange {α : Type} {r : α} (ht : lensType m lens = LensType.quantile.code) :
    Simulates m lens .quantile
      (.ok (r, store64 m (lens + sizeofLens + 8 * (4 + (e : ℕ))) 0, s))
      (.ok (r, .quantile { quantileOf (dataWord m lens) with
        count := Function.update (quantileOf (dataWord m lens)).count e 0 }, s)) := by
  have hl : slotsLen .quantile = 48 := rfl
  have he := e.isLt
  refine simulates_storeAll ht [(4 + (e : ℕ), 0)] ?_ ?_
  · simp
    omega
  · exact congrArg LensData.quantile (quantileOf_count e _ _)

theorem lensQuantileRead_sim (h : DataAt m lens t d) (value : OpticsQuantile) : Simulates m lens t
    ((lensQuantileRead fpu rng m lens e s value).bind paired)
    ((LensQuantile.lensQuantileRead fpu rng d e value s).bind paired) := by
  obtain ⟨ht, rfl⟩ := h
  unfold lensQuantileRead
  rw [lensSubPtr_eq ht]
  cases t with
  | quantile =>
    rw [lensQuantileRead_dataOf]
    simp only [if_true]
    rw [show (quantileOf fun i => load64 m (lens + sizeofLens + 8 * i)) =
      quantileOf (dataWord m lens) from rfl,
      show num (load64 m (lens + sizeofLens + 8 * (4 + (e : ℕ)))) =
        (quantileOf (dataWord m lens)).count e from rfl]
    split_ifs
    · exact simulates_exchange e s ht
    · exact simulates_exchange e s ht
    · exact simulates_bind_bind fun r => simulates_exchange e r.2 ht
  | _ => exact simulates_none ⟨ht, rfl⟩

/-! ### All of them -/

/-- A call of a function on a lens. Doubles that are recorded are given by their bits. -/
inductive Use where
  | counterInc (value : UInt64)
  | gaugeSet (value : UInt64)
  | distRecord (value : UInt64)
  | histoInc (value : UInt64)
  | quantileUpdate (value : UInt64)
  | read (value : OpticsPollValue)

/-- What a call returns, with the value a read leaves the caller. -/
inductive Returned where
  | recorded (ok : Bool)
  | read (ret : OpticsRet) (value : OpticsPollValue)

/-- A call, with its result as that of any call. -/
def tag {α τ : Type} (f : α → Returned) (x : Outcome (α × τ × σ)) : Outcome (Returned × τ × σ) :=
  x.bind fun r => .ok (f r.1, r.2)

/-- The result of a read. -/
def readAs {α : Type} (f : α → OpticsPollValue) (r : OpticsRet × α) : Returned := .read r.1 (f r.2)

/-- The call on the lens in memory. -/
def Use.run (m : Mem) (lens : ℕ) : Use → Outcome (Returned × Mem × σ)
  | .counterInc v => tag .recorded (recorded s (lensCounterInc m lens e v))
  | .gaugeSet v => tag .recorded (recorded s (lensGaugeSet m lens v))
  | .distRecord v => tag .recorded (lensDistRecord rng m lens e s v)
  | .histoInc v => tag .recorded ((lensHistoInc m lens e v).bind (recorded s))
  | .quantileUpdate v => tag .recorded (lensQuantileUpdate fpu rng m lens e s v)
  | .read (.counter v) => tag (readAs .counter) (readOf s (lensCounterRead m lens e v))
  | .read (.gauge v) =>
    tag (readAs .gauge) (readOf s ((lensGaugeRead m lens v).1, (lensGaugeRead m lens v).2, m))
  | .read (.dist v) => tag (readAs .dist) ((lensDistRead fpu rng m lens e s v).bind paired)
  | .read (.histo v) => tag (readAs .histo) (readOf s (lensHistoRead m lens e v))
  | .read (.quantile v) =>
    tag (readAs .quantile) ((lensQuantileRead fpu rng m lens e s v).bind paired)

/-- The call on the value. -/
def Use.apply (d : LensData) : Use → Outcome (Returned × LensData × σ)
  | .counterInc v => tag .recorded (recorded s (LensSlots.lensCounterInc d e v))
  | .gaugeSet v => tag .recorded (recorded s (LensWords.gaugeSet d v))
  | .distRecord v => tag .recorded (LensDist.lensDistRecord rng d e (punItod v) s)
  | .histoInc v =>
    tag .recorded ((LensSlots.lensHistoInc d e (punItod v)).bind (recorded s))
  | .quantileUpdate v =>
    tag .recorded (LensQuantile.lensQuantileUpdate fpu rng d e (punItod v) s)
  | .read value => tag (readAs id) ((readValue fpu rng value d e s).bind paired)

theorem Simulates.tag {α : Type} {x : Outcome (α × Mem × σ)} {y : Outcome (α × LensData × σ)}
    (h : Simulates m lens t x y) (f : α → Returned) :
    Simulates m lens t (LensWords.tag f x) (LensWords.tag f y) := by
  cases h with
  | ok hd hm => exact .ok hd hm
  | error f => exact .error f

theorem tag_readAs {α τ : Type} (f : α → OpticsPollValue) (x : Outcome (OpticsRet × α × τ × σ)) :
    tag (readAs id) ((x.bind fun r => .ok (r.1, f r.2.1, r.2.2.1, r.2.2.2)).bind paired) =
      tag (readAs f) (x.bind paired) := by
  cases x <;> rfl

/-- **The functions on memory do to the value of a lens what the functions on values do.** -/
theorem Use.simulates (h : DataAt m lens t d) (u : Use) :
    Simulates m lens t (u.run fpu rng e s m lens) (u.apply fpu rng e s d) := by
  cases u with
  | counterInc v => exact (lensCounterInc_sim e s h v).tag _
  | gaugeSet v => exact (lensGaugeSet_sim s h v).tag _
  | distRecord v => exact (lensDistRecord_sim rng e s h v).tag _
  | histoInc v => exact (lensHistoInc_sim e s h v).tag _
  | quantileUpdate v => exact (lensQuantileUpdate_sim fpu rng e s h v).tag _
  | read value =>
    cases value with
    | counter v => exact (lensCounterRead_sim e s h v).tag (readAs .counter)
    | gauge v =>
      show Simulates m lens t _ (LensWords.tag (readAs .gauge) (readOf s (LensSlots.lensGaugeRead d v)))
      rw [lensGaugeRead_eq h v]
      exact (simulates_none h).tag (readAs .gauge)
    | dist v =>
      have happly : (Use.read (.dist v)).apply fpu rng e s d =
          LensWords.tag (readAs .dist) ((LensDist.lensDistRead fpu rng d e v s).bind paired) :=
        tag_readAs _ _
      rw [happly]
      exact (lensDistRead_sim fpu rng e s h v).tag _
    | histo v => exact (lensHistoRead_sim e s h v).tag (readAs .histo)
    | quantile v =>
      have happly : (Use.read (.quantile v)).apply fpu rng e s d = LensWords.tag (readAs .quantile)
          ((LensQuantile.lensQuantileRead fpu rng d e v s).bind paired) := tag_readAs _ _
      rw [happly]
      exact (lensQuantileRead_sim fpu rng e s h v).tag _

end Simulations

end Optics.LensWords
