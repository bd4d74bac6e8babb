import Optics.DistRounds
import Mathlib.Data.Multiset.Sort
import Mathlib.Tactic.Linarith

/-! # The percentiles of a distribution

While there are at most 200 samples the reservoirs hold all of them, and the percentiles of a round
should be order statistics of what was recorded, whatever the order (`PercentilesExact`). The
comparator cuts the difference of two samples down to an `int`: samples less than 1 apart compare
equal, and a difference from `2^31` on has no conversion. So the percentiles are right for every
order of recording if and only if no two samples are that far apart and, at each of the three ranks,
every other value is at least 1 away (`percentiles_iff`). Of the sort only what an `IsSort` promises
matters (`sort_exact_iff`). -/

namespace Optics.DistPercentiles

open Optics.Base Optics.Lenses Optics.LensSlots Optics.Doubles Optics.Utils.Random
open Optics.LensDist Optics.DistRounds Optics.Lib.Sorting

/-! ### The law -/

/-- A slot nobody holds and without records. -/
def Empty (epoch : Fin 2) (lens : LensData) : Prop :=
  ∃ epochs, lens = .dist epochs ∧ (epochs epoch).lock = false ∧ (epochs epoch).n = 0

/-- The element of a rank in the ascending sort. -/
def orderStat (S : Multiset ℚ) (percentile : ℕ) : Option ℚ :=
  (S.sort (· ≤ ·))[S.card * percentile / 100]?

/-- A percentile of a record is the order statistic. -/
def IsPercentile (S : Multiset ℚ) (percentile : ℕ) (v : Double) : Prop :=
  ∃ q, orderStat S percentile = some q ∧ v = .fin q

/-- **The percentiles of the samples are those of the record**, in any round that records them. -/
def PercentilesExact (S : Multiset ℚ) : Prop :=
  ∀ (ι σ : Type) [DecidableEq ι] (rng : Rng σ) (epoch : Fin 2) (r : Round ι)
    (lenses : ι → LensData) (s : σ), r.Complete → (↑(r.records.map Prod.snd) : Multiset ℚ) = S →
    (∀ i, Empty epoch (lenses i)) →
    ∃ rets value lenses' s', runRound rational rng epoch r lenses s = .ok (rets, value, lenses', s') ∧
      (∀ ret ∈ rets, ret = .ok) ∧ IsPercentile S 50 value.p50 ∧ IsPercentile S 90 value.p90 ∧
      IsPercentile S 99 value.p99 ∧ less value.p90 value.p50 = false ∧
      less value.p99 value.p90 = false

/-- No two samples are `2^31` apart, and at the ranks of the percentiles every other value is at
least 1 away. -/
def Spread (S : Multiset ℚ) : Prop :=
  (∀ x ∈ S, ∀ y ∈ S, y - x < 2 ^ 31) ∧
    ∀ p ∈ [50, 90, 99], ∀ q, orderStat S p = some q → ∀ x ∈ S, x ≠ q → 1 ≤ |x - q|

/-! ### The comparator -/

theorem trunc_le_zero {q : ℚ} : trunc q ≤ 0 ↔ q < 1 := by
  unfold trunc
  split_ifs with h
  · have h1 : ⌈q⌉ ≤ 0 := Int.ceil_le.mpr (by simpa using h.le)
    exact ⟨fun _ => h.trans one_pos, fun _ => h1⟩
  · rw [← Int.lt_add_one_iff, Int.floor_lt]
    norm_num

theorem trunc_range {q : ℚ} (h1 : -2 ^ 31 < q) (h2 : q < 2 ^ 31) :
    -2 ^ 31 ≤ trunc q ∧ trunc q ≤ 2 ^ 31 - 1 := by
  unfold trunc
  split_ifs with h
  · have ha : (-2 ^ 31 : ℤ) ≤ ⌈q⌉ := Int.le_ceil_iff.mpr (by push_cast; linarith)
    have hb : ⌈q⌉ ≤ 0 := Int.ceil_le.mpr (by simpa using h.le)
    omega
  · have ha : (0 : ℤ) ≤ ⌊q⌋ := Int.le_floor.mpr (by simpa using h)
    have hb : ⌊q⌋ < 2 ^ 31 := Int.floor_lt.mpr (by exact_mod_cast h2)
    omega

theorem trunc_ge {q : ℚ} (h : 2 ^ 31 ≤ q) : 2 ^ 31 ≤ trunc q := by
  have h0 : ¬ q < 0 := by
    have : (0 : ℚ) < 2 ^ 31 := by norm_num
    linarith
  rw [trunc, if_neg h0]
  exact Int.le_floor.mpr (by exact_mod_cast h)

theorem cmp_fin (x y : ℚ) : lensDistValueCmp rational (.fin x) (.fin y) =
    toRange (-2 ^ 31) (2 ^ 31 - 1) (.fin (x - y)) := by
  rw [show x - y = x + -y from sub_eq_add_neg x y]
  rfl

theorem cmp_ok {x y : ℚ} (h1 : x - y < 2 ^ 31) (h2 : y - x < 2 ^ 31) :
    lensDistValueCmp rational (.fin x) (.fin y) = .ok (trunc (x - y)) := by
  rw [cmp_fin]
  exact if_pos (trunc_range (by linarith) h1)

theorem cmp_far {x y : ℚ} (h : 2 ^ 31 ≤ x - y) :
    lensDistValueCmp rational (.fin x) (.fin y) = .error .undefined := by
  rw [cmp_fin]
  refine if_neg fun hc => ?_
  have := trunc_ge h
  omega

theorem cmp_le {x y : ℚ} {c : ℤ} (h : lensDistValueCmp rational (.fin x) (.fin y) = .ok c) :
    c ≤ 0 ↔ x - y < 1 := by
  rw [cmp_fin] at h
  unfold toRange at h
  dsimp only at h
  split_ifs at h
  cases h
  exact trunc_le_zero

/-! ### Filling the slots -/

section Fill
variable {ι σ : Type} [DecidableEq ι] (rng : Rng σ) {epoch : Fin 2}

/-- A slot nobody holds, with a list of samples. -/
def Holds (epoch : Fin 2) (lens : LensData) (l : List ℚ) : Prop :=
  ∃ epochs, lens = .dist epochs ∧ (epochs epoch).lock = false ∧
    (epochs epoch).n = .ofNat l.length ∧
    (epochs epoch).samples.toList.take l.length = l.map .fin

theorem Empty.holds {lens : LensData} (h : Empty epoch lens) : Holds epoch lens [] := by
  obtain ⟨epochs, rfl, hlock, hn⟩ := h
  exact ⟨epochs, rfl, hlock, hn, List.take_zero⟩

/-- **A record is put behind the samples** while there are less than 200. -/
theorem Holds.record {lens : LensData} {l : List ℚ} (h : Holds epoch lens l)
    (hl : l.length < opticsDistSamples) (v : ℚ) (s : σ) :
    ∃ lens' s', lensDistRecord rng lens epoch (.fin v) s = .ok (true, lens', s') ∧
      Holds epoch lens' (l ++ [v]) := by
  obtain ⟨epochs, rfl, hlock, hn, hs⟩ := h
  have hi : (epochs epoch).n.toNat = l.length := by rw [hn, toNat_ofNat_small hl.le]
  have hbody : recordBody rng (epochs epoch) (.fin v) s =
      ({ epochs epoch with
          n := (epochs epoch).n + 1
          max := if less (epochs epoch).max (.fin v) then .fin v else (epochs epoch).max
          samples := (epochs epoch).samples.set l.length (.fin v) hl }, s) := by
    simp [recordBody, recordIndex, hi, hl]
  refine ⟨_, _, lensDistRecord_spec hlock (.fin v) s, _, rfl, ?_⟩
  rw [Function.update_self, hbody]
  refine ⟨hlock, ?_, ?_⟩
  · show (epochs epoch).n + 1 = _
    rw [hn, List.length_append, List.length_singleton, UInt64.ofNat_add]
    rfl
  · show (((epochs epoch).samples.set l.length (.fin v) hl).toList.take (l ++ [v]).length) = _
    rw [List.length_append, List.length_singleton, take_set_samples, hs, List.map_append]
    rfl

theorem runRecords_holds (records : List (ι × ℚ)) : ∀ {lenses : ι → LensData} (ls : ι → List ℚ)
    (s : σ), (∀ i, Holds epoch (lenses i) (ls i)) →
    (∀ i, (ls i).length + (valuesOf i records).length ≤ opticsDistSamples) →
    ∃ lenses' s', runRecords rng epoch records lenses s = .ok (lenses', s') ∧
      ∀ i, Holds epoch (lenses' i) (ls i ++ valuesOf i records) := by
  induction records with
  | nil =>
    intro lenses ls s h _
    exact ⟨_, s, rfl, fun i => by simpa [valuesOf] using h i⟩
  | cons x rest ih =>
    obtain ⟨i, v⟩ := x
    intro lenses ls s h hle
    have hi := hle i
    rw [valuesOf_cons, if_pos rfl, List.length_cons] at hi
    obtain ⟨lens, s1, hrec, hlens⟩ := (h i).record rng (by omega) v s
    have h1 : ∀ j, Holds epoch (Function.update lenses i lens j)
        (Function.update ls i (ls i ++ [v]) j) := forall_update h i hlens
    have h2 : ∀ j, (Function.update ls i (ls i ++ [v]) j).length + (valuesOf j rest).length ≤
        opticsDistSamples := by
      intro j
      by_cases hj : j = i
      · subst hj
        rw [Function.update_self, List.length_append, List.length_singleton]
        omega
      · have := hle j
        have hij : ¬ i = j := fun hc => hj hc.symm
        rw [valuesOf_cons, if_neg hij] at this
        rw [Function.update_of_ne hj]
        exact this
    obtain ⟨lenses', s', hrun, hmax⟩ := ih _ s1 h1 h2
    refine ⟨lenses', s', ?_, fun j => ?_⟩
    · rw [runRecords, hrec]
      exact hrun
    · have hj := hmax j
      rw [valuesOf_cons]
      by_cases hij : i = j
      · subst hij
        simpa using hj
      · have hji : ¬ j = i := fun hc => hij hc.symm
        simpa [hji, hij] using hj

end Fill

/-! ### Merging what fits -/

section Merge
variable {σ : Type} (fpu : Fpu) (rng : Rng σ)

theorem mergeInto_small (dst toMerge : List Double)
    (h : dst.length + toMerge.length ≤ opticsDistSamples) (s : σ) :
    mergeInto fpu rng dst (.ofNat dst.length) toMerge (.ofNat toMerge.length) s =
      .ok (dst ++ toMerge, (dst ++ toMerge).length, s) := by
  have hd := toNat_ofNat_small (n := dst.length) (by omega)
  have hm := toNat_ofNat_small (n := toMerge.length) (by omega)
  have hsum := toNat_ofNat_small (n := dst.length + toMerge.length) h
  unfold mergeInto
  by_cases h0 : toMerge = []
  · subst h0
    have hmin : lensDistReservoirLen (.ofNat dst.length) = dst.length := by
      rw [lensDistReservoirLen, hd]
      exact min_eq_left (by simpa using h)
    rw [List.length_nil, if_pos (by decide), hmin, List.append_nil]
  · have hpos : 0 < toMerge.length := List.length_pos_iff.mpr h0
    have hne : UInt64.ofNat toMerge.length ≠ 0 := fun hc => by
      rw [hc] at hm
      exact hpos.ne hm
    rw [if_neg hne, hd, if_pos (by omega), hm, min_eq_right (by omega)]
    dsimp only
    rw [if_pos (sub_self _), List.take_length, ← UInt64.ofNat_add, hsum, List.length_append]

/-- **Two reservoirs that fit into one** are put together. -/
theorem lensDistMerge_small (lhs rhs : List Double)
    (h : lhs.length + rhs.length ≤ opticsDistSamples) (s : σ) :
    ∃ l, l.Perm (lhs ++ rhs) ∧ lensDistMerge fpu rng lhs (.ofNat lhs.length) rhs
      (.ofNat rhs.length) s = .ok (l, l.length, s) := by
  have hl := toNat_ofNat_small (n := lhs.length) (by omega)
  have hr := toNat_ofNat_small (n := rhs.length) (by omega)
  unfold lensDistMerge lensDistReservoirLen
  rw [hl, hr, min_eq_left (by omega), min_eq_left (by omega), List.take_length, List.take_length]
  split_ifs with hle
  · exact ⟨_, List.Perm.refl _, mergeInto_small fpu rng lhs rhs h s⟩
  · exact ⟨_, List.perm_append_comm, mergeInto_small fpu rng rhs lhs (by omega) s⟩

theorem lensDistMerge_nil (lhs : List Double) (h : lhs.length ≤ opticsDistSamples) (s : σ) :
    lensDistMerge fpu rng lhs (.ofNat lhs.length) [] 0 s = .ok (lhs, lhs.length, s) := by
  have hm := mergeInto_small fpu rng lhs [] (by simpa using h) s
  unfold lensDistMerge lensDistReservoirLen
  rw [if_pos (UInt64.le_iff_toNat_le.mpr (Nat.zero_le _)), toNat_ofNat_small h, min_eq_left h,
    List.take_length]
  simpa using hm

end Merge

/-! ### Reading -/

section Reading
variable {ι σ : Type} [DecidableEq ι] (rng : Rng σ) {epoch : Fin 2}

/-- No difference of two samples is out of range. -/
def Fits (l : List ℚ) : Prop := ∀ x ∈ l, ∀ y ∈ l, y - x < 2 ^ 31

theorem Fits.mono {l l' : List ℚ} (h : Fits l) (hl : ∀ x ∈ l', x ∈ l) : Fits l' :=
  fun x hx y hy => h x (hl x hx) y (hl y hy)

/-- The entries at the ranks of the percentiles. -/
structure HasPercentiles (o : List Double) (p50 p90 p99 : Double) : Prop where
  p50 : entry o (lensDistP 50 o.length) = .ok p50
  p90 : entry o (lensDistP 90 o.length) = .ok p90
  p99 : entry o (lensDistP 99 o.length) = .ok p99

/-- A record that holds some samples, with the percentiles of a sort of them. -/
structure Merged (acc : List ℚ) (value : OpticsDist) : Prop where
  n : value.n = .ofNat acc.length
  samples : value.samples.Perm (acc.map .fin)
  percentiles : acc ≠ [] → ∃ l o, l.Perm (acc.map .fin) ∧
    mergeSort (lensDistValueCmp rational) l = .ok o ∧
    HasPercentiles o value.p50 value.p90 value.p99

theorem merged_zero : Merged [] OpticsDist.zero :=
  ⟨rfl, List.Perm.refl _, fun h => absurd rfl h⟩

theorem Merged.mergeMax {acc : List ℚ} {value : OpticsDist} (h : Merged acc value) (max : Double) :
    Merged acc (value.mergeMax max) := ⟨h.n, h.samples, h.percentiles⟩

theorem Merged.perm {acc acc' : List ℚ} {value : OpticsDist} (h : Merged acc value)
    (hp : acc.Perm acc') : Merged acc' value := by
  refine ⟨hp.length_eq ▸ h.n, h.samples.trans (hp.map _), fun hne => ?_⟩
  obtain ⟨l, o, hl, ho⟩ := h.percentiles fun hc => hne (by
    subst hc
    exact hp.nil_eq.symm)
  exact ⟨l, o, hl.trans (hp.map _), ho⟩

theorem lensDistP_lt {p n : ℕ} (hp : p < 100) (hn : 0 < n) : lensDistP p n < n := by
  unfold lensDistP
  have : n * p < n * 100 := Nat.mul_lt_mul_of_pos_left hp hn
  omega

theorem hasPercentiles {o : List Double} (h : o ≠ []) : ∃ p50 p90 p99, HasPercentiles o p50 p90 p99 := by
  have key : ∀ p, p < 100 → ∃ v, entry o (lensDistP p o.length) = .ok v := fun p hp => by
    have hi := lensDistP_lt hp (List.length_pos_iff.mpr h)
    exact ⟨o[lensDistP p o.length], by simp [entry, hi]⟩
  obtain ⟨p50, h50⟩ := key 50 (by decide)
  obtain ⟨p90, h90⟩ := key 90 (by decide)
  obtain ⟨p99, h99⟩ := key 99 (by decide)
  exact ⟨p50, p90, p99, h50, h90, h99⟩

theorem sort_fits {sort : List Double → Outcome (List Double)}
    (hsort : IsSort (lensDistValueCmp rational) sort) {acc : List ℚ} (h : Fits acc) {l : List Double}
    (hl : l.Perm (acc.map .fin)) : ∃ o, sort l = .ok o := by
  refine hsort.returns fun x hx y hy => ?_
  obtain ⟨a, ha, rfl⟩ := List.mem_map.mp (hl.mem_iff.mp hx)
  obtain ⟨b, hb, rfl⟩ := List.mem_map.mp (hl.mem_iff.mp hy)
  exact ⟨_, cmp_ok (h b hb a ha) (h a ha b hb)⟩

/-- **Samples are merged into a record.** -/
theorem Merged.mergeSamples {acc l : List ℚ} {value : OpticsDist} (h : Merged acc value)
    (hlen : l.length + acc.length ≤ opticsDistSamples) (hfits : Fits (l ++ acc)) (s : σ) :
    ∃ value', value.mergeSamples rational rng (.ofNat l.length) (l.map .fin) s = .ok (value', s) ∧
      Merged (l ++ acc) value' := by
  by_cases h0 : l = []
  · subst h0
    exact ⟨value, rfl, h⟩
  have hne : UInt64.ofNat l.length ≠ 0 := fun hc => by
    have := toNat_ofNat_small (n := l.length) (by omega)
    rw [hc] at this
    exact h0 (List.length_eq_zero_iff.mp this.symm)
  have hsl : value.samples.length = acc.length := by simpa using h.samples.length_eq
  obtain ⟨m, hm, hmerge⟩ := lensDistMerge_small rational rng (l.map .fin) value.samples
    (by simpa [hsl] using hlen) s
  rw [List.length_map, hsl, ← h.n] at hmerge
  have hm : m.Perm ((l ++ acc).map .fin) := by
    rw [List.map_append]
    exact hm.trans (h.samples.append_left _)
  obtain ⟨o, ho⟩ := sort_fits isSort_mergeSort hfits hm
  have hmo : o.length = m.length := (mergeSort_perm ho).length_eq
  have hmn : m ≠ [] := fun hc => by
    subst hc
    have := hm.length_eq
    rw [List.length_nil, List.length_map, List.length_append] at this
    exact h0 (List.length_eq_zero_iff.mp (by omega))
  have hon : o ≠ [] := fun hc => hmn (List.length_eq_zero_iff.mp (by rw [← hmo, hc]; rfl))
  obtain ⟨p50, p90, p99, hp⟩ := hasPercentiles hon
  refine ⟨{ value with n := value.n + .ofNat l.length, p50, p90, p99, samples := m }, ?_, ?_, hm,
    fun _ => ⟨m, o, hm, ho, hp⟩⟩
  · unfold OpticsDist.mergeSamples
    rw [if_neg hne, hmerge]
    simp only [Base.ok_bind, List.take_length]
    rw [ho, ← hmo]
    simp only [Base.ok_bind]
    rw [hp.p50, hp.p90, hp.p99]
    rfl
  · show value.n + .ofNat l.length = _
    rw [h.n, ← UInt64.ofNat_add, List.length_append, add_comm]

/-- **A read** of a slot that holds at most 200 samples. -/
theorem Holds.read {lens : LensData} {l : List ℚ} (h : Holds epoch lens l)
    (hlen : l.length ≤ opticsDistSamples) : ∃ max lens', Holds epoch lens' [] ∧
      ∀ value s, lensDistRead rational rng lens epoch value s = (do
        let (value, s) ← (value.mergeMax max).mergeSamples rational rng (.ofNat l.length)
          (l.map .fin) s
        .ok (.ok, value, lens', s)) := by
  obtain ⟨epochs, rfl, hlock, hn, hs⟩ := h
  have hcopy : copySlot (epochs epoch) = (.ofNat l.length, l.map .fin) := by
    rw [copySlot, hn, lensDistReservoirLen, toNat_ofNat_small hlen, min_eq_left hlen, hs]
  let left := Function.update epochs epoch (slockUnlock (resetSlot (epochs epoch)))
  refine ⟨(epochs epoch).max, .dist left, ⟨left, rfl, ?_, ?_, List.take_zero⟩, fun value s => ?_⟩
  · simp [left, slockUnlock]
  · simp [left, slockUnlock, resetSlot]
  · rw [lensDistRead_spec hlock, hcopy]

/-- What reads find in the slots, one after the other. -/
def drained : List ι → (ι → List ℚ) → List ℚ
  | [], _ => []
  | i :: rest, ls => ls i ++ drained rest (Function.update ls i [])

/-- **The reads of a round** collect the samples of the slots. -/
theorem runReads_merged (reads : List ι) : ∀ {lenses : ι → LensData} {ls : ι → List ℚ}
    {acc : List ℚ} {value : OpticsDist} (s : σ), (∀ i, Holds epoch (lenses i) (ls i)) →
    Merged acc value → (drained reads ls).length + acc.length ≤ opticsDistSamples →
    Fits (drained reads ls ++ acc) →
    ∃ rets value' lenses', runReads rational rng epoch reads value lenses s =
        .ok (rets, value', lenses', s) ∧ (∀ ret ∈ rets, ret = .ok) ∧
      Merged (drained reads ls ++ acc) value' := by
  induction reads with
  | nil => exact fun s _ hm _ _ => ⟨[], _, _, rfl, by simp, hm⟩
  | cons i rest ih =>
    intro lenses ls acc value s h hm hlen hfits
    rw [drained, List.length_append] at hlen
    rw [drained, List.append_assoc] at hfits
    obtain ⟨max, lens, hlens, hread⟩ := (h i).read rng (by omega)
    obtain ⟨v1, hv1, hm1⟩ := (hm.mergeMax max).mergeSamples rng (l := ls i) (by omega)
      (hfits.mono fun x hx => by simp only [List.mem_append] at hx ⊢; tauto) s
    have h1 : ∀ j, Holds epoch (Function.update lenses i lens j) (Function.update ls i [] j) :=
      forall_update h i hlens
    obtain ⟨rets, v2, lenses2, hrun, hrets, hm2⟩ := ih s h1 hm1
      (by rw [List.length_append]; omega)
      (hfits.mono fun x hx => by simp only [List.mem_append] at hx ⊢; tauto)
    refine ⟨.ok :: rets, v2, lenses2, ?_, by simpa using hrets, hm2.perm ?_⟩
    · rw [runReads, hread, hv1]
      simp only [Base.ok_bind, hrun]
    · rw [drained, ← List.append_assoc]
      exact List.perm_append_comm.append_right acc

omit [DecidableEq ι] in
theorem filter_ne_perm {p q : ι × ℚ → Bool} {records : List (ι × ℚ)} :
    ((records.filter p).map Prod.snd ++ ((records.filter fun x => !p x).filter q).map Prod.snd).Perm
      ((records.filter fun x => p x || q x).map Prod.snd) := by
  rw [← List.map_append]
  refine List.Perm.map _ ?_
  induction records with
  | nil => exact List.Perm.refl _
  | cons x rest ih =>
    by_cases hp : p x
    · simpa [hp] using ih
    · by_cases hq : q x
      · simpa [hp, hq] using List.perm_middle.trans (ih.cons x)
      · simpa [hp, hq] using ih

/-- What the reads of a round find are its values, in some order. -/
theorem drained_perm (reads : List ι) : ∀ (records : List (ι × ℚ)),
    (drained reads fun i => valuesOf i records).Perm
      ((records.filter fun x => decide (x.1 ∈ reads)).map Prod.snd) := by
  induction reads with
  | nil => exact fun records => by simp [drained]
  | cons i rest ih =>
    intro records
    have hupd : Function.update (fun j => valuesOf j records) i [] =
        fun j => valuesOf j (records.filter fun x => !decide (x.1 = i)) := by
      funext j
      by_cases hj : j = i
      · subst hj
        rw [Function.update_self, valuesOf, List.filter_filter]
        simp
      · rw [Function.update_of_ne hj, valuesOf, valuesOf, List.filter_filter]
        congr 1
        refine List.filter_congr fun x _ => ?_
        by_cases hx : x.1 = j
        · simp [hx, hj]
        · simp [hx]
    rw [drained, hupd]
    refine (List.Perm.append_left _ (ih _)).trans ?_
    refine filter_ne_perm.trans (List.Perm.of_eq ?_)
    congr 1
    refine List.filter_congr fun x _ => ?_
    simp

end Reading

/-! ### Ranks -/

/-- Below, at or above a value. -/
def rank (q : ℚ) : Double → ℕ
  | .fin x => if x < q then 0 else if x = q then 1 else 2
  | _ => 0

theorem rank_eq_one {q : ℚ} {v : Double} (h : rank q v = 1) : v = .fin q := by
  cases v with
  | fin x =>
    unfold rank at h
    dsimp only at h
    split_ifs at h with h1 h2
    · rw [h2]
    · cases h
  | _ => cases h

theorem rank_mono {q x y : ℚ} (h : x ≤ y) : rank q (.fin x) ≤ rank q (.fin y) := by
  unfold rank
  dsimp only
  by_cases hx : x < q
  · rw [if_pos hx]
    exact Nat.zero_le _
  · have hy : ¬ y < q := not_lt.mpr ((not_lt.mp hx).trans h)
    rw [if_neg hx, if_neg hy]
    by_cases hyq : y = q
    · have hxq : x = q := le_antisymm (h.trans hyq.le) (not_lt.mp hx)
      rw [if_pos hxq, if_pos hyq]
    · rw [if_neg hyq]
      split_ifs <;> decide

/-- Away from a value, the comparator tells what is below from what is above. -/
theorem rank_agrees {S : List ℚ} {q : ℚ} (hq : ∀ x ∈ S, x ≠ q → 1 ≤ |x - q|) :
    Agrees (lensDistValueCmp rational) (fun v w => rank q v ≤ rank q w) (S.map .fin) := by
  have key : ∀ x ∈ S, ∀ y ∈ S, x - y < 1 → rank q (.fin x) ≤ rank q (.fin y) := by
    intro x hx y hy hxy
    by_contra hlt
    unfold rank at hlt
    dsimp only at hlt
    have h1 := hq x hx
    have h2 := hq y hy
    rcases lt_trichotomy x q with h | h | h
    · simp [h] at hlt
    · have hy' : y < q := by
        by_contra hc
        by_cases hyq : y = q <;> simp [h, hyq, hc] at hlt
      have := h2 hy'.ne
      rw [abs_of_neg (by linarith)] at this
      linarith
    · have hy' : y ≤ q := by
        by_contra hc
        simp [not_lt.mpr h.le, h.ne', not_lt.mpr (not_le.mp hc).le, (not_le.mp hc).ne'] at hlt
      have := h1 h.ne'
      rw [abs_of_pos (by linarith)] at this
      linarith
  intro v hv w hw c hc
  obtain ⟨x, hx, rfl⟩ := List.mem_map.mp hv
  obtain ⟨y, hy, rfl⟩ := List.mem_map.mp hw
  refine ⟨fun h => key x hx y hy ((cmp_le hc).mp h), fun h => ?_⟩
  have h1 : ¬ x - y < 1 := fun hc' => absurd ((cmp_le hc).mpr hc') (by omega)
  exact rank_mono (by linarith)

/-- **A sort puts the order statistic at its rank** if every other value is at least 1 away. -/
theorem sort_orderStat {sort : List Double → Outcome (List Double)}
    (hsort : IsSort (lensDistValueCmp rational) sort) {acc : List ℚ} {l o : List Double}
    (hl : l.Perm (acc.map .fin)) (ho : sort l = .ok o) {p : ℕ} {q : ℚ}
    (hstat : orderStat ↑acc p = some q) (hq : ∀ x ∈ acc, x ≠ q → 1 ≤ |x - q|) {v : Double}
    (hv : entry o (lensDistP p o.length) = .ok v) : v = .fin q := by
  have hag : Agrees (lensDistValueCmp rational) (fun v w => rank q v ≤ rank q w) l :=
    (rank_agrees hq).mono fun x hx => hl.mem_iff.mp hx
  have hsorted := hsort.pairwise (fun _ _ _ hxy hyz => hxy.trans hyz) hag ho
  have hperm : o.Perm (((↑acc : Multiset ℚ).sort (· ≤ ·)).map .fin) := by
    refine ((hsort.perm ho).trans hl).trans (List.Perm.map _ ?_)
    exact Multiset.coe_eq_coe.mp (Multiset.sort_eq _ _).symm
  have hpo : (o.map (rank q)).Pairwise (· ≤ ·) := List.pairwise_map.mpr hsorted
  have hps : ((((↑acc : Multiset ℚ).sort (· ≤ ·)).map Double.fin).map (rank q)).Pairwise (· ≤ ·) := by
    rw [List.map_map, List.pairwise_map]
    exact (Multiset.pairwise_sort _ _).imp rank_mono
  have heq : o.map (rank q) = (((↑acc : Multiset ℚ).sort (· ≤ ·)).map Double.fin).map (rank q) :=
    (hperm.map (rank q)).eq_of_pairwise' hpo hps
  have hlen : o.length = (↑acc : Multiset ℚ).card := by
    rw [hperm.length_eq, List.length_map, Multiset.length_sort]
  have hat : o[lensDistP p o.length]? = some v := by
    unfold entry at hv
    split at hv
    · cases hv
      assumption
    · cases hv
  have hrank : rank q v = rank q (.fin q) := by
    have h1 : (o.map (rank q))[lensDistP p o.length]? = some (rank q v) := by
      rw [List.getElem?_map, hat]
      rfl
    rw [heq, List.getElem?_map, List.getElem?_map, hlen] at h1
    unfold orderStat at hstat
    rw [lensDistP, hstat] at h1
    exact (Option.some.inj h1).symm
  refine rank_eq_one (hrank.trans ?_)
  simp [rank]

theorem orderStat_some {S : Multiset ℚ} (h : 1 ≤ S.card) {p : ℕ} (hp : p < 100) :
    ∃ q, orderStat S p = some q := by
  have hi : S.card * p / 100 < (S.sort (· ≤ ·)).length := by
    rw [Multiset.length_sort]
    exact lensDistP_lt hp h
  exact ⟨_, List.getElem?_eq_getElem hi⟩

theorem orderStat_mono {S : Multiset ℚ} {p p' : ℕ} (hp : p ≤ p') {q q' : ℚ}
    (h : orderStat S p = some q) (h' : orderStat S p' = some q') : q ≤ q' := by
  obtain ⟨hi, rfl⟩ := List.getElem?_eq_some_iff.mp h
  obtain ⟨hi', rfl⟩ := List.getElem?_eq_some_iff.mp h'
  have hle : S.card * p / 100 ≤ S.card * p' / 100 :=
    Nat.div_le_div_right (Nat.mul_le_mul_left _ hp)
  rcases hle.lt_or_eq with hlt | heq
  · exact List.pairwise_iff_getElem.mp (S.pairwise_sort (· ≤ ·)) _ _ hi hi' hlt
  · simp only [heq, le_refl]

/-! ### Enough -/

/-- **Spread samples have exact percentiles.** -/
theorem Spread.exact {S : Multiset ℚ} (hs : Spread S) (h1 : 1 ≤ S.card)
    (h2 : S.card ≤ opticsDistSamples) : PercentilesExact S := by
  intro ι σ _ rng epoch r lenses s hr hS hempty
  subst hS
  have hvals : (drained r.reads fun i => valuesOf i r.records).Perm (r.records.map Prod.snd) := by
    have h := drained_perm r.reads r.records
    rwa [List.filter_eq_self.mpr fun x hx => decide_eq_true (hr.covered x hx)] at h
  have hlen : r.records.length ≤ opticsDistSamples := by simpa using h2
  have hle : ∀ i, (valuesOf i r.records).length ≤ opticsDistSamples := fun i => by
    refine le_trans ?_ hlen
    unfold valuesOf
    rw [List.length_map]
    exact List.length_filter_le _ _
  obtain ⟨lenses1, s1, hrec, hholds⟩ := runRecords_holds rng r.records (fun _ => []) s
    (fun i => (hempty i).holds) (by simpa using hle)
  have hfits : Fits ((drained r.reads fun i => valuesOf i r.records) ++ []) := by
    rw [List.append_nil]
    intro x hx y hy
    exact hs.1 x (hvals.mem_iff.mp hx) y (hvals.mem_iff.mp hy)
  obtain ⟨rets, value, lenses', hrun, hrets, hm⟩ := runReads_merged rng r.reads s1
    (by simpa using hholds) merged_zero (by simpa [hvals.length_eq] using hlen) hfits
  rw [List.append_nil] at hm
  have hm := hm.perm hvals
  obtain ⟨l, o, hl, ho, hp⟩ := hm.percentiles (by simpa using hr.nonempty)
  have key : ∀ p ∈ [50, 90, 99], p < 100 → ∀ v, entry o (lensDistP p o.length) = .ok v →
      ∃ q, orderStat ↑(r.records.map Prod.snd) p = some q ∧ v = .fin q := by
    intro p hmem hp v hv
    obtain ⟨q, hq⟩ := orderStat_some h1 hp
    exact ⟨q, hq, sort_orderStat isSort_mergeSort hl ho hq (hs.2 p hmem q hq) hv⟩
  obtain ⟨q50, hq50, h50⟩ := key 50 (by decide) (by decide) _ hp.p50
  obtain ⟨q90, hq90, h90⟩ := key 90 (by decide) (by decide) _ hp.p90
  obtain ⟨q99, hq99, h99⟩ := key 99 (by decide) (by decide) _ hp.p99
  refine ⟨rets, value, lenses', s1, ?_, hrets, ⟨q50, hq50, h50⟩, ⟨q90, hq90, h90⟩,
    ⟨q99, hq99, h99⟩, ?_, ?_⟩
  · rw [runRound, hrec]
    exact hrun
  · rw [h50, h90]
    exact decide_eq_false (not_lt.mpr (orderStat_mono (by decide) hq50 hq90))
  · rw [h90, h99]
    exact decide_eq_false (not_lt.mpr (orderStat_mono (by decide) hq90 hq99))

/-! ### Necessary -/

/-- All samples in one lens just allocated, in a given order. -/
def inOrder (l : List ℚ) : Round Unit := ⟨l.map (Prod.mk ()), [()]⟩

theorem inOrder_complete {l : List ℚ} (h : l ≠ []) : (inOrder l).Complete :=
  ⟨by simpa [inOrder] using h, by simp [inOrder]⟩

theorem inOrder_values (l : List ℚ) : (inOrder l).records.map Prod.snd = l := by
  simp [inOrder, Function.comp_def]

theorem empty_fresh (i : Unit) : Empty 0 ((fun _ => freshDist) i) := ⟨_, rfl, rfl, rfl⟩

/-- **One lens**: its samples are sorted in the order they were recorded in. -/
theorem runRound_inOrder {l : List ℚ} (h0 : l ≠ []) (hlen : l.length ≤ opticsDistSamples)
    {rets : List OpticsRet} {value : OpticsDist} {lenses' : Unit → LensData} {s s' : UInt64}
    (h : runRound rational (xorshift rational) 0 (inOrder l) (fun _ => freshDist) s =
      .ok (rets, value, lenses', s')) :
    ∃ o, mergeSort (lensDistValueCmp rational) (l.map .fin) = .ok o ∧
      HasPercentiles o value.p50 value.p90 value.p99 := by
  have hvals : ∀ i, valuesOf i (inOrder l).records = l := fun i => by
    have hall : ∀ x ∈ (inOrder l).records, decide (x.1 = i) = true := fun x _ => rfl
    rw [valuesOf, List.filter_eq_self.mpr hall, inOrder_values]
  obtain ⟨lenses1, s1, hrec, hholds⟩ := runRecords_holds (xorshift rational) (inOrder l).records
    (fun _ => []) s (fun i => (empty_fresh i).holds) fun i => by
      simpa only [hvals, List.length_nil, Nat.zero_add] using hlen
  have hhold : Holds 0 (lenses1 ()) l := by simpa only [hvals, List.nil_append] using hholds ()
  obtain ⟨max, lens, -, hread⟩ := hhold.read (xorshift rational) hlen
  rw [runRound, hrec] at h
  simp only [Base.ok_bind, inOrder, runReads, hread] at h
  obtain ⟨⟨ret1, v1, lens1, s2⟩, hv1, h⟩ := Base.bind_eq_ok.mp h
  cases h
  obtain ⟨⟨v2, s3⟩, hm, hv1⟩ := Base.bind_eq_ok.mp hv1
  cases hv1
  have hne : UInt64.ofNat l.length ≠ 0 := fun hc => by
    have := toNat_ofNat_small hlen
    rw [hc] at this
    exact h0 (List.length_eq_zero_iff.mp this.symm)
  have hmerge := lensDistMerge_nil rational (xorshift rational) (l.map .fin)
    (by simpa using hlen) s1
  rw [List.length_map] at hmerge
  rw [OpticsDist.mergeSamples, if_neg hne] at hm
  rw [show (OpticsDist.zero.mergeMax max).samples = [] from rfl,
    show (OpticsDist.zero.mergeMax max).n = 0 from rfl, hmerge] at hm
  simp only [Base.ok_bind] at hm
  rw [← List.length_map (f := Double.fin), List.take_length] at hm
  obtain ⟨o, ho, hm⟩ := Base.bind_eq_ok.mp hm
  obtain ⟨p50, h50, hm⟩ := Base.bind_eq_ok.mp hm
  obtain ⟨p90, h90, hm⟩ := Base.bind_eq_ok.mp hm
  obtain ⟨p99, h99, hm⟩ := Base.bind_eq_ok.mp hm
  cases hm
  rw [← (mergeSort_perm ho).length_eq] at h50 h90 h99
  exact ⟨o, ho, h50, h90, h99⟩

theorem PercentilesExact.inOrder {S : Multiset ℚ} (h : PercentilesExact S) (h1 : 1 ≤ S.card)
    (h2 : S.card ≤ opticsDistSamples) {l : List ℚ} (hl : ↑l = S) :
    ∃ o, mergeSort (lensDistValueCmp rational) (l.map .fin) = .ok o ∧
      ∀ p ∈ [50, 90, 99], ∀ q, orderStat S p = some q →
        entry o (lensDistP p o.length) = .ok (.fin q) := by
  subst hl
  have h0 : l ≠ [] := fun hc => by simp [hc] at h1
  obtain ⟨rets, value, lenses', s', hrun, -, hp50, hp90, hp99, -⟩ := h Unit UInt64
    (xorshift rational) 0 (DistPercentiles.inOrder l) (fun _ => freshDist) 1 (inOrder_complete h0)
    (by rw [inOrder_values]) empty_fresh
  obtain ⟨o, ho, hp⟩ := runRound_inOrder h0 h2 hrun
  refine ⟨o, ho, fun p hmem q hq => ?_⟩
  have key : ∀ {v}, IsPercentile ↑l p v → v = .fin q := by
    rintro v ⟨q', hq', rfl⟩
    rw [hq] at hq'
    cases hq'
    rfl
  simp only [List.mem_cons, List.not_mem_nil, or_false] at hmem
  rcases hmem with rfl | rfl | rfl
  · rw [hp.p50, key hp50]
  · rw [hp.p90, key hp90]
  · rw [hp.p99, key hp99]

/-- **No two samples are too far apart**: recorded one after the other they are compared. -/
theorem PercentilesExact.fits {S : Multiset ℚ} (h : PercentilesExact S) (h1 : 1 ≤ S.card)
    (h2 : S.card ≤ opticsDistSamples) : ∀ x ∈ S, ∀ y ∈ S, y - x < 2 ^ 31 := by
  intro x hx y hy
  by_contra hfar
  have hfar : 2 ^ 31 ≤ y - x := not_lt.mp hfar
  have hne : x ≠ y := by
    rintro rfl
    rw [sub_self] at hfar
    exact absurd hfar (by norm_num)
  obtain ⟨S1, rfl⟩ := Multiset.exists_cons_of_mem hy
  have hx1 : x ∈ S1 := (Multiset.mem_cons.mp hx).resolve_left hne
  obtain ⟨S2, rfl⟩ := Multiset.exists_cons_of_mem hx1
  obtain ⟨rest, rfl⟩ := Quot.exists_rep S2
  obtain ⟨o, ho, -⟩ := h.inOrder h1 h2 (l := y :: x :: rest) rfl
  have herr := mergeSort_error (cmp_far hfar) (rest.map .fin)
  rw [List.map_cons, List.map_cons, herr] at ho
  cases ho

theorem sort_unmoved {sort : List Double → Outcome (List Double)}
    (hsort : IsSort (lensDistValueCmp rational) sort) {l : List ℚ} (hfits : Fits l)
    (h : l.Pairwise fun x y => x - y < 1) : sort (l.map .fin) = .ok (l.map .fin) := by
  refine hsort.unmoved (List.pairwise_map.mpr ?_)
  refine List.Pairwise.imp_of_mem (fun {x y} hx hy hxy => ?_) h
  exact ⟨_, trunc_le_zero.mpr hxy, cmp_ok (hfits y hy x hx) (hfits x hx y hy)⟩

theorem pairwise_insert {l1 l2 : List ℚ} {x : ℚ} (h : (l1 ++ l2).Pairwise (· ≤ ·))
    (h1 : ∀ a ∈ l1, a - x < 1) (h2 : ∀ b ∈ l2, x - b < 1) :
    (l1 ++ x :: l2).Pairwise fun a b => a - b < 1 := by
  obtain ⟨hl1, hl2, hcross⟩ := List.pairwise_append.mp h
  have hlt : ∀ {a b : ℚ}, a ≤ b → a - b < 1 := fun h => by linarith
  refine List.pairwise_append.mpr ⟨hl1.imp hlt, List.pairwise_cons.mpr ⟨h2, hl2.imp hlt⟩, ?_⟩
  intro a ha b hb
  rcases List.mem_cons.mp hb with rfl | hb
  · exact h1 a ha
  · exact hlt (hcross a ha b hb)

theorem exists_around {S : Multiset ℚ} {p : ℕ} {q : ℚ} (hq : orderStat S p = some q) :
    ∃ P T : List ℚ, ↑(P ++ q :: T) = S ∧ P.length = S.card * p / 100 ∧
      (P ++ q :: T).Pairwise (· ≤ ·) ∧ (∀ a ∈ P, a ≤ q) ∧ ∀ b ∈ T, q ≤ b := by
  obtain ⟨hi, hat⟩ := List.getElem?_eq_some_iff.mp hq
  have hsplit : (S.sort (· ≤ ·)).take (S.card * p / 100) ++
      q :: (S.sort (· ≤ ·)).drop (S.card * p / 100 + 1) = S.sort (· ≤ ·) := by
    rw [← hat, List.cons_getElem_drop_succ, List.take_append_drop]
  have hsort := S.pairwise_sort (· ≤ ·)
  have hS : (↑(S.sort (· ≤ ·)) : Multiset ℚ) = S := S.sort_eq (· ≤ ·)
  rw [← hsplit] at hsort hS
  obtain ⟨hp1, hp2, hcross⟩ := List.pairwise_append.mp hsort
  exact ⟨_, _, hS, List.length_take_of_le hi.le, hsort,
    fun a ha => hcross a ha q List.mem_cons_self, (List.pairwise_cons.mp hp2).1⟩

/-- A smaller sample can be put behind the order statistic. -/
theorem exists_moved_up {P T : List ℚ} {q x : ℚ} (hsort : (P ++ q :: T).Pairwise (· ≤ ·))
    (hbelow : ∀ a ∈ P, a ≤ q) (habove : ∀ b ∈ T, q ≤ b) (hx : x ∈ P) (hnear : q - x < 1) :
    ∃ l : List ℚ, l.Perm (P ++ q :: T) ∧ l.Pairwise (fun a b => a - b < 1) ∧
      l[P.length]? = some x := by
  obtain ⟨P1, P2, rfl⟩ := List.append_of_mem hx
  refine ⟨(P1 ++ P2 ++ [q]) ++ x :: T, ?_, pairwise_insert ?_ ?_ ?_, ?_⟩
  · simp only [List.append_assoc, List.cons_append]
    refine List.Perm.append_left P1 ?_
    exact (List.perm_middle.trans (List.perm_middle.cons q |>.trans
      (List.Perm.swap x q _))).trans ((List.perm_middle (a := q)).symm.cons x)
  · refine List.Pairwise.sublist ?_ hsort
    simp only [List.append_assoc, List.cons_append]
    exact (List.Sublist.refl P1).append ((List.Sublist.refl _).cons x)
  · intro a ha
    have : a ≤ q := by
      simp only [List.mem_append, List.mem_singleton] at ha
      rcases ha with (ha | ha) | rfl
      · exact hbelow a (List.mem_append_left _ ha)
      · exact hbelow a (List.mem_append_right _ (List.mem_cons_of_mem _ ha))
      · exact le_rfl
    linarith
  · intro b hb
    have h1 := habove b hb
    have h2 := hbelow x hx
    linarith
  · rw [List.getElem?_append_right (by simp)]
    simp

/-- A greater sample can be put in front of it. -/
theorem exists_moved_down {P T : List ℚ} {q x : ℚ} (hsort : (P ++ q :: T).Pairwise (· ≤ ·))
    (hbelow : ∀ a ∈ P, a ≤ q) (habove : ∀ b ∈ T, q ≤ b) (hx : x ∈ T) (hnear : x - q < 1) :
    ∃ l : List ℚ, l.Perm (P ++ q :: T) ∧ l.Pairwise (fun a b => a - b < 1) ∧
      l[P.length]? = some x := by
  obtain ⟨T1, T2, rfl⟩ := List.append_of_mem hx
  refine ⟨P ++ x :: (q :: (T1 ++ T2)), ?_, pairwise_insert ?_ ?_ ?_, ?_⟩
  · refine List.Perm.append_left P ?_
    exact (List.Perm.swap q x _).trans (List.perm_middle.symm.cons q)
  · refine List.Pairwise.sublist ?_ hsort
    refine (List.Sublist.refl P).append (List.Sublist.cons_cons q ?_)
    exact (List.Sublist.refl T1).append ((List.Sublist.refl T2).cons x)
  · intro a ha
    have h1 := hbelow a ha
    have h2 := habove x hx
    linarith
  · intro b hb
    have : q ≤ b := by
      simp only [List.mem_cons, List.mem_append] at hb
      rcases hb with rfl | hb | hb
      · exact le_rfl
      · exact habove b (List.mem_append_left _ hb)
      · exact habove b (List.mem_append_right _ (List.mem_cons_of_mem _ hb))
    linarith
  · rw [List.getElem?_append_right le_rfl]
    simp

/-- A sample less than 1 away from the order statistic can be put at its rank. -/
theorem exists_displaced {S : Multiset ℚ} {p : ℕ} {q x : ℚ} (hq : orderStat S p = some q)
    (hx : x ∈ S) (hne : x ≠ q) (hnear : |x - q| < 1) :
    ∃ l : List ℚ, ↑l = S ∧ l.Pairwise (fun a b => a - b < 1) ∧ l[S.card * p / 100]? = some x := by
  obtain ⟨P, T, hS, hP, hsort, hbelow, habove⟩ := exists_around hq
  obtain ⟨hn1, hn2⟩ := abs_lt.mp hnear
  have hmoved : ∃ l : List ℚ, l.Perm (P ++ q :: T) ∧ l.Pairwise (fun a b => a - b < 1) ∧
      l[P.length]? = some x := by
    rw [← hS, Multiset.mem_coe] at hx
    rcases List.mem_append.mp hx with hxP | hxT
    · exact exists_moved_up hsort hbelow habove hxP (by linarith)
    · exact exists_moved_down hsort hbelow habove ((List.mem_cons.mp hxT).resolve_left hne) hn2
  obtain ⟨l, hperm, hpairs, hat⟩ := hmoved
  exact ⟨l, (Multiset.coe_eq_coe.mpr hperm).trans hS, hpairs, hP ▸ hat⟩

/-- **Any sort** finds the order statistics, in whatever order it is given the samples, if and only if
no other value is near them: a value that is could be put where it takes their place. -/
theorem sort_exact_iff {sort : List Double → Outcome (List Double)}
    (hsort : IsSort (lensDistValueCmp rational) sort) {S : Multiset ℚ} (h1 : 1 ≤ S.card)
    (hfits : ∀ x ∈ S, ∀ y ∈ S, y - x < 2 ^ 31) :
    (∀ l : List ℚ, ↑l = S → ∃ o, sort (l.map .fin) = .ok o ∧ ∀ p ∈ [50, 90, 99], ∀ q,
      orderStat S p = some q → entry o (lensDistP p o.length) = .ok (.fin q)) ↔ Spread S := by
  constructor
  · refine fun h => ⟨hfits, fun p hp q hq x hx hne => ?_⟩
    by_contra hnear
    obtain ⟨l, hl, hpw, hat⟩ := exists_displaced hq hx hne (not_le.mp hnear)
    obtain ⟨o, ho, hperc⟩ := h l hl
    rw [sort_unmoved hsort (fun a ha b hb => hfits a (hl ▸ ha) b (hl ▸ hb)) hpw] at ho
    cases ho
    have hent := hperc p hp q hq
    have hlen : l.length = S.card := by rw [← hl]; rfl
    rw [entry, lensDistP, List.length_map, hlen, List.getElem?_map, hat] at hent
    cases hent
    exact hne rfl
  · rintro hs l rfl
    obtain ⟨o, ho⟩ := sort_fits hsort hs.1 (List.Perm.refl _)
    refine ⟨o, ho, fun p hp q hq => ?_⟩
    have hlen : o.length = l.length := by rw [(hsort.perm ho).length_eq, List.length_map]
    have hlt : p < 100 := by
      simp only [List.mem_cons, List.not_mem_nil, or_false] at hp
      omega
    have hi := lensDistP_lt hlt (n := o.length) (hlen ▸ h1)
    have hv : entry o (lensDistP p o.length) = .ok o[lensDistP p o.length] := by simp [entry, hi]
    rw [hv, sort_orderStat hsort (List.Perm.refl _) ho hq (hs.2 p hp q hq) hv]

theorem PercentilesExact.spread {S : Multiset ℚ} (h : PercentilesExact S) (h1 : 1 ≤ S.card)
    (h2 : S.card ≤ opticsDistSamples) : Spread S :=
  (sort_exact_iff isSort_mergeSort h1 (h.fits h1 h2)).mp fun _ hl => h.inOrder h1 h2 hl

/-- **When percentiles are order statistics.** -/
theorem percentiles_iff {S : Multiset ℚ} (h1 : 1 ≤ S.card) (h2 : S.card ≤ opticsDistSamples) :
    PercentilesExact S ↔ Spread S := by
  constructor
  · exact fun h => h.spread h1 h2
  · exact fun hs => hs.exact h1 h2

theorem percentiles_iff_three : PercentilesExact {1, 2, 4} ↔ Spread {1, 2, 4} :=
  percentiles_iff (by simp) (by simp [opticsDistSamples])

/-- Of 0.1 and 0.9 the median is 0.9, but not when 0.9 is recorded first. -/
theorem percentiles_fail : ¬ PercentilesExact {1 / 10, 9 / 10} := by
  intro h
  have hsort : (({1 / 10, 9 / 10} : Multiset ℚ).sort (· ≤ ·)) = [1 / 10, 9 / 10] := by
    refine (Multiset.sort_cons (1 / 10) {9 / 10} _ fun b hb => ?_).trans
      (by rw [Multiset.sort_singleton])
    rw [Multiset.mem_singleton.mp hb]
    norm_num
  have hq : orderStat {1 / 10, 9 / 10} 50 = some (9 / 10) := by
    rw [orderStat, hsort]
    rfl
  have hfar := (h.spread (by simp) (by simp [opticsDistSamples])).2 50 (by simp) _ hq (1 / 10)
    (Multiset.mem_cons_self (1 / 10) _) (by norm_num)
  rw [abs_of_neg (by norm_num)] at hfar
  norm_num at hfar

end Optics.DistPercentiles
