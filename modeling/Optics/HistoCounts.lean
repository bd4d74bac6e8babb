import Optics.RestHistos
import Mathlib.Algebra.BigOperators.Fin
import Mathlib.Algebra.Order.BigOperators.Group.Finset

/-! # Where a histogram counts a value

The bounds `lens_histo_alloc` accepts cut the numbers into what is below the first bound, what is at
or above the last one, and the buckets in between; `lens_histo_inc` should add one to the counter of
the part a value belongs to. The comparisons are those of doubles, and a value that is not a number
is below no bound and above none.

* `belongs_unique`: a value belongs to at most one part;
* `histoPart_spec`: a number has a part, and belongs to it; what is not a number has none;
* `histo_iff`: a value is counted where it belongs iff it is a number; the counters add up to the
  number of values as long as all are numbers and no counter wraps. -/

namespace Optics.HistoCounts

open Optics.Base Optics.Lenses Optics.LensSlots Optics.RestHistos

/-! ### The bounds -/

/-- The bounds that are accepted are 2 to 9, and increase. -/
theorem histoBucketsOk_iff {buckets : List ℕ} : histoBucketsOk buckets = true ↔
    (2 ≤ buckets.length ∧ buckets.length ≤ opticsHistoBucketsMax + 1) ∧
      buckets.Pairwise (· < ·) := by
  have hchain : ∀ l : List ℕ, ((l.zip l.tail).all fun b => !decide (b.1 ≥ b.2)) = true ↔
      l.Pairwise (· < ·) := by
    intro l
    rw [← List.isChain_iff_pairwise]
    induction l with
    | nil => simp
    | cons a l ih =>
      cases l with
      | nil => simp
      | cons b l =>
        rw [List.isChain_cons_cons, ← ih]
        simp
  unfold histoBucketsOk
  rw [Bool.and_eq_true, Bool.and_eq_true, hchain, decide_eq_true_eq, decide_eq_true_eq]

/-- A number in the order of the extended ones. -/
def Below : Double → ℚ → Prop
  | .negInf, _ => True
  | .fin p, q => p < q
  | _, _ => False

def AtLeast : Double → ℚ → Prop
  | .posInf, _ => True
  | .fin p, q => q ≤ p
  | _, _ => False

theorem atLeast_of_not_below {v : Double} (hv : v ≠ .nan) {q : ℚ} (h : ¬ Below v q) :
    AtLeast v q := by
  cases v with
  | nan => exact absurd rfl hv
  | negInf => exact absurd trivial h
  | fin p => exact not_lt.mp h
  | posInf => trivial

theorem lt_of_below_of_atLeast {v : Double} {q r : ℚ} (h : Below v q) (h' : AtLeast v r) : r < q := by
  cases v with
  | nan => exact h.elim
  | negInf => exact h'.elim
  | fin p => exact lt_of_le_of_lt h' h
  | posInf => exact h.elim

theorem lt_iff {b : UInt64} (hb : doubleOf b = b.toNat) (v : Double) :
    v.lt b = true ↔ Below v b.toNat := by
  cases v with
  | fin p => rw [← hb]; exact decide_eq_true_iff
  | _ => simp [Double.lt, Below]

theorem ge_iff {b : UInt64} (hb : doubleOf b = b.toNat) (v : Double) :
    v.ge b = true ↔ AtLeast v b.toNat := by
  cases v with
  | fin p => rw [← hb]; exact decide_eq_true_iff
  | _ => simp [Double.ge, AtLeast]

/-- The value belongs to the part. -/
def Belongs (buckets : List UInt64) (v : Double) : Part → Prop
  | .value => False
  | .below => Below v (buckets.getD 0 0).toNat
  | .above => AtLeast v (buckets.getD (buckets.length - 1) 0).toNat
  | .counts i => i.val + 1 < buckets.length ∧ AtLeast v (buckets.getD i 0).toNat ∧
      Below v (buckets.getD (i + 1) 0).toNat

section Buckets
variable {buckets : List UInt64}

theorem getD_le_getD (hinc : buckets.Pairwise (· < ·)) {i j : ℕ} (hij : i ≤ j)
    (hj : j < buckets.length) :
    ((buckets.getD i 0).toNat : ℚ) ≤ (buckets.getD j 0).toNat := by
  rw [Nat.cast_le]
  rcases Nat.eq_or_lt_of_le hij with rfl | hlt
  · exact le_rfl
  · rw [List.getD_eq_getElem _ _ (by omega), List.getD_eq_getElem _ _ hj]
    exact (UInt64.lt_iff_toNat_lt.mp
      (List.pairwise_iff_getElem.mp hinc i j (by omega) hj hlt)).le

/-- **A value belongs to one part** at most. -/
theorem belongs_unique (hinc : buckets.Pairwise (· < ·)) (hlen : 2 ≤ buckets.length) {v : Double}
    {p q : Part} (hp : Belongs buckets v p) (hq : Belongs buckets v q) : p = q := by
  -- a value below one bound is not at least one in front of it
  have happart {i j : ℕ} (hij : i ≤ j) (hj : j < buckets.length)
      (hbelow : Below v (buckets.getD i 0).toNat) : ¬ AtLeast v (buckets.getD j 0).toNat :=
    fun hge => absurd (lt_of_below_of_atLeast hbelow hge) (not_lt.mpr (getD_le_getD hinc hij hj))
  cases p with
  | value => exact hp.elim
  | below =>
    cases q with
    | value => exact hq.elim
    | below => rfl
    | above => exact absurd hq (happart (Nat.zero_le _) (by omega) hp)
    | counts j => exact absurd hq.2.1 (happart (Nat.zero_le _) (by have := hq.1; omega) hp)
  | above =>
    cases q with
    | value => exact hq.elim
    | below => exact absurd hp (happart (Nat.zero_le _) (by omega) hq)
    | above => rfl
    | counts j => exact absurd hp (happart (by have := hq.1; omega) (by omega) hq.2.2)
  | counts i =>
    cases q with
    | value => exact hq.elim
    | below => exact absurd hp.2.1 (happart (Nat.zero_le _) (by have := hp.1; omega) hq)
    | above => exact absurd hq (happart (by have := hp.1; omega) (by omega) hp.2.2)
    | counts j =>
      obtain ⟨hi, hgei, hlti⟩ := hp
      obtain ⟨hj, hgej, hltj⟩ := hq
      rcases Nat.lt_trichotomy i.val j.val with hlt | heq | hgt
      · exact absurd hgej (happart hlt (by omega) hlti)
      · rw [Fin.ext heq]
      · exact absurd hgei (happart hgt (by omega) hltj)

/-! ### The search -/

theorem findBucket_some {v : Double} : ∀ {bs : List UInt64} {i j : ℕ}, findBucket v i bs = some j →
    ∃ k, j = i + k ∧ k < bs.length ∧ v.lt (bs.getD k 0) = true ∧
      ∀ l < k, v.lt (bs.getD l 0) = false
  | b :: bs, i, j, h => by
    unfold findBucket at h
    split_ifs at h with hlt
    · cases h
      exact ⟨0, rfl, Nat.zero_lt_succ _, hlt, fun l hl => absurd hl (Nat.not_lt_zero l)⟩
    · obtain ⟨k, rfl, hk, hltk, hmin⟩ := findBucket_some h
      refine ⟨k + 1, by omega, Nat.succ_lt_succ hk, hltk, fun l hl => ?_⟩
      cases l with
      | zero => exact Bool.eq_false_iff.mpr hlt
      | succ l => exact hmin l (by omega)

theorem findBucket_none {v : Double} : ∀ {bs : List UInt64} {i : ℕ}, findBucket v i bs = none →
    ∀ b ∈ bs, v.lt b = false
  | b :: bs, i, h, c, hc => by
    unfold findBucket at h
    split_ifs at h with hlt
    rcases List.mem_cons.mp hc with rfl | hc
    · exact Bool.eq_false_iff.mpr hlt
    · exact findBucket_none h c hc

theorem findBucket_nan : ∀ (bs : List UInt64) (i : ℕ), findBucket .nan i bs = none
  | [], _ => rfl
  | _ :: bs, i => findBucket_nan bs (i + 1)

theorem getD_tail (l : List UInt64) (k : ℕ) : l.tail.getD k 0 = l.getD (k + 1) 0 := by
  cases l with
  | nil => rfl
  | cons a l => rfl

section Exact
variable (hexact : ∀ b ∈ buckets, doubleOf b = b.toNat)
include hexact

theorem getD_exact {i : ℕ} (hi : i < buckets.length) :
    doubleOf (buckets.getD i 0) = (buckets.getD i 0).toNat := by
  rw [List.getD_eq_getElem _ _ hi]
  exact hexact _ (List.getElem_mem hi)

theorem belongs_of_histoPart (hlen : 2 ≤ buckets.length) {v : Double} (hv : v ≠ .nan) {p : Part}
    (h : histoPart buckets v = some p) : Belongs buckets v p := by
  have hge {i : ℕ} (hi : i < buckets.length) (hlt : v.lt (buckets.getD i 0) = false) :
      AtLeast v (buckets.getD i 0).toNat := by
    refine atLeast_of_not_below hv fun hbelow => ?_
    rw [(lt_iff (getD_exact hexact hi) v).mpr hbelow] at hlt
    cases hlt
  unfold histoPart at h
  split_ifs at h with hbelow habove
  · cases h
    exact (lt_iff (getD_exact hexact (by omega)) v).mp hbelow
  · cases h
    exact (ge_iff (getD_exact hexact (by omega)) v).mp habove
  · rcases hfind : findBucket v 0 buckets.tail with _ | j
    · rw [hfind] at h
      cases h
    · rw [hfind] at h
      dsimp only at h
      split_ifs at h with hj
      cases h
      obtain ⟨k, hjk, hk, hlt, hmin⟩ := findBucket_some hfind
      rw [Nat.zero_add] at hjk
      subst hjk
      rw [List.length_tail] at hk
      rw [getD_tail] at hlt
      have hj1 : j + 1 < buckets.length := by omega
      refine ⟨hj1, ?_, (lt_iff (getD_exact hexact hj1) v).mp hlt⟩
      -- the bound in front is the first one, or one the loop went past
      cases j with
      | zero => exact hge (Nat.zero_lt_of_lt hj1) (Bool.eq_false_iff.mpr hbelow)
      | succ j =>
        have hpast := hmin j (Nat.lt_succ_self j)
        rw [getD_tail] at hpast
        exact hge (Nat.lt_of_succ_lt hj1) hpast

/-- **A number has a part.** -/
theorem exists_histoPart (hlen : 2 ≤ buckets.length ∧ buckets.length ≤ opticsHistoBucketsMax + 1)
    {v : Double} (hv : v ≠ .nan) : ∃ p, histoPart buckets v = some p := by
  unfold histoPart
  split_ifs with hbelow habove
  · exact ⟨_, rfl⟩
  · exact ⟨_, rfl⟩
  · rcases hfind : findBucket v 0 buckets.tail with _ | i
    · -- a value not at least the last bound is below it
      have hlast : buckets.getD (buckets.length - 1) 0 ∈ buckets.tail := by
        have hget : buckets.getD (buckets.length - 1) 0 =
            buckets.tail.getD (buckets.length - 2) 0 := by
          rw [getD_tail]
          congr 1
          omega
        rw [hget, List.getD_eq_getElem _ _ (by rw [List.length_tail]; omega)]
        exact List.getElem_mem _
      have hnot := findBucket_none hfind _ hlast
      have hb := getD_exact hexact (i := buckets.length - 1) (by omega)
      have hge : AtLeast v (buckets.getD (buckets.length - 1) 0).toNat := by
        refine atLeast_of_not_below hv fun hbelow' => ?_
        rw [(lt_iff hb v).mpr hbelow'] at hnot
        cases hnot
      exact absurd ((ge_iff hb v).mpr hge) habove
    · have hlt := findBucket_lt hfind
      rw [List.length_tail] at hlt
      dsimp only
      rw [dif_pos (show i < opticsHistoBucketsMax by omega)]
      exact ⟨_, rfl⟩

end Exact

theorem histoPart_nan (buckets : List UInt64) : histoPart buckets .nan = none := by
  unfold histoPart
  rw [findBucket_nan]
  rfl

/-! ### Recording -/

/-- Recording the value returns, and adds one to the counter of the epoch for the part to which the
value belongs, and to no other. -/
def Classified (epochs : Fin 2 → LensHistoEpoch) (buckets : List UInt64) (epoch : Fin 2)
    (v : Double) : Prop :=
  ∃ part epochs', lensHistoInc (.histo epochs buckets) epoch v =
      .ok (true, .histo epochs' buckets) ∧
    (∀ p, Belongs buckets v p ↔ p = part) ∧
    ∀ e p, (epochs' e).get p = (epochs e).get p + if e = epoch ∧ p = part then 1 else 0

/-- What is not a number hits the assertion. -/
theorem lensHistoInc_nan (epochs : Fin 2 → LensHistoEpoch) (buckets : List UInt64) (epoch : Fin 2) :
    lensHistoInc (.histo epochs buckets) epoch .nan = .error .abort := by
  unfold lensHistoInc
  dsimp only
  rw [histoPart_nan]

theorem classified_iff (hinc : buckets.Pairwise (· < ·))
    (hlen : 2 ≤ buckets.length ∧ buckets.length ≤ opticsHistoBucketsMax + 1)
    (hexact : ∀ b ∈ buckets, doubleOf b = b.toNat) (epochs : Fin 2 → LensHistoEpoch)
    (epoch : Fin 2) (v : Double) : Classified epochs buckets epoch v ↔ v ≠ .nan := by
  constructor
  · rintro ⟨part, epochs', hrun, -⟩ rfl
    rw [lensHistoInc_nan] at hrun
    cases hrun
  · intro hv
    obtain ⟨part, hpart⟩ := exists_histoPart hexact hlen hv
    have hbelongs := belongs_of_histoPart hexact hlen.1 hv hpart
    have hne : part ≠ .value := fun hc => by
      rw [hc] at hbelongs
      exact hbelongs
    refine ⟨part, Function.update epochs epoch ((epochs epoch).set ((epochs epoch).get part + 1) part),
      ?_, fun p => ⟨fun hp => belongs_unique hinc hlen.1 hp hbelongs, fun hp => hp ▸ hbelongs⟩,
      fun e p => ?_⟩
    · unfold lensHistoInc
      dsimp only
      rw [hpart]
      rfl
    · by_cases he : e = epoch
      · subst he
        rw [Function.update_self, LensHistoEpoch.get_set _ _ hne]
        by_cases hp : p = part
        · simp [hp]
        · simp [hp]
      · simp [he]

/-! ### Totals -/

/-- The sum of all counters. -/
def total (h : LensHistoEpoch) : ℕ := h.below.toNat + h.above.toNat + ∑ i, (h.counts i).toNat

/-- The number of values that go to a part. -/
def hits (buckets : List UInt64) (values : List Double) (part : Part) : ℕ :=
  values.countP fun v => histoPart buckets v = some part

theorem sum_hits {values : List Double} (h : ∀ v ∈ values, ∃ p, histoPart buckets v = some p) :
    hits buckets values .below + hits buckets values .above +
      ∑ i, hits buckets values (.counts i) = values.length := by
  induction values with
  | nil => simp [hits]
  | cons v values ih =>
    have ih := ih fun w hw => h w (List.mem_cons_of_mem _ hw)
    obtain ⟨p, hp⟩ := h v List.mem_cons_self
    have hne : p ≠ .value := fun hc =>
      LensData.value_notMem_histo (fun _ => ⟨0, 0, fun _ => 0⟩) buckets
        (hc ▸ histoPart_mem hp fun _ => ⟨0, 0, fun _ => 0⟩)
    have hcons (q : Part) : hits buckets (v :: values) q =
        hits buckets values q + if p = q then 1 else 0 := by
      unfold hits
      rw [List.countP_cons, hp]
      simp
    simp only [hcons, Finset.sum_add_distrib, List.length_cons]
    cases p with
    | value => exact absurd rfl hne
    | below => simp; omega
    | above => simp; omega
    | counts i => simp; omega

/-- Recording the values returns, and the counters of the epoch add up to their number. -/
def Totals (epochs : Fin 2 → LensHistoEpoch) (buckets : List UInt64) (epoch : Fin 2)
    (values : List Double) : Prop :=
  ∃ epochs', recordAll epoch values (.histo epochs buckets) = .ok (.histo epochs' buckets) ∧
    total (epochs' epoch) = values.length

theorem recordAll_returns (hlen : 2 ≤ buckets.length ∧ buckets.length ≤ opticsHistoBucketsMax + 1)
    (hexact : ∀ b ∈ buckets, doubleOf b = b.toNat) (epoch : Fin 2) :
    ∀ (values : List Double) (epochs : Fin 2 → LensHistoEpoch), (∀ v ∈ values, v ≠ .nan) →
      ∃ lens, recordAll epoch values (.histo epochs buckets) = .ok lens
  | [], epochs, _ => ⟨_, rfl⟩
  | v :: values, epochs, h => by
    obtain ⟨part, hpart⟩ := exists_histoPart hexact hlen (h v List.mem_cons_self)
    obtain ⟨lens, hrest⟩ := recordAll_returns hlen hexact epoch values
      (Function.update epochs epoch ((epochs epoch).set ((epochs epoch).get part + 1) part))
      fun w hw => h w (List.mem_cons_of_mem _ hw)
    refine ⟨lens, ?_⟩
    rw [recordAll]
    unfold lensHistoInc
    dsimp only
    rw [hpart]
    exact hrest

theorem ne_nan_of_recordAll {epoch : Fin 2} : ∀ {values : List Double}
    {epochs : Fin 2 → LensHistoEpoch} {lens : LensData},
    recordAll epoch values (.histo epochs buckets) = .ok lens → ∀ v ∈ values, v ≠ .nan
  | v :: values, epochs, lens, h, w, hw => by
    rw [recordAll] at h
    obtain ⟨⟨ret, lens1⟩, hinc, hrest⟩ := Base.bind_eq_ok.mp h
    have hv : v ≠ .nan := fun hnan => by
      rw [hnan, lensHistoInc_nan] at hinc
      cases hinc
    rcases List.mem_cons.mp hw with rfl | hw
    · exact hv
    · have hone : recordAll epoch [v] (.histo epochs buckets) = .ok lens1 := by
        rw [recordAll, hinc]
        rfl
      obtain ⟨epochs1, rfl, -⟩ := recordAll_spec hone
      exact ne_nan_of_recordAll hrest w hw

/-- The counters of a fresh epoch add up to the number of values iff none of them wraps. -/
theorem total_eq_length_iff {values : List Double} {h : LensHistoEpoch}
    (hget : ∀ part, part ≠ .value → h.get part = .ofNat (hits buckets values part))
    (hparts : ∀ v ∈ values, ∃ p, histoPart buckets v = some p) :
    total h = values.length ↔ ∀ part, part ≠ .value → hits buckets values part < 2 ^ 64 := by
  have hnat (part : Part) (hne : part ≠ .value) :
      (h.get part).toNat = hits buckets values part % 2 ^ 64 := by
    rw [hget part hne]
    rfl
  have hsum := sum_hits hparts
  have hle : ∑ i, (h.counts i).toNat ≤ ∑ i, hits buckets values (.counts i) :=
    Finset.sum_le_sum fun i _ => (hnat (.counts i) (by simp)).trans_le (Nat.mod_le _ _)
  have hbelow : h.below.toNat = hits buckets values .below % 2 ^ 64 := hnat .below (by simp)
  have habove : h.above.toNat = hits buckets values .above % 2 ^ 64 := hnat .above (by simp)
  have hmod (n : ℕ) : n % 2 ^ 64 ≤ n := Nat.mod_le _ _
  constructor
  · intro htotal part hne
    unfold total at htotal
    have h1 := hmod (hits buckets values .below)
    have h2 := hmod (hits buckets values .above)
    have hcounts : ∑ i, (h.counts i).toNat = ∑ i, hits buckets values (.counts i) := by omega
    cases part with
    | value => exact absurd rfl hne
    | below => omega
    | above => omega
    | counts i =>
      have heq := (Finset.sum_eq_sum_iff_of_le fun i _ =>
        (hnat (.counts i) (by simp)).trans_le (Nat.mod_le _ _)).mp hcounts i (Finset.mem_univ i)
      rw [hnat (.counts i) (by simp)] at heq
      omega
  · intro hfits
    have hsame (part : Part) (hne : part ≠ .value) : (h.get part).toNat = hits buckets values part := by
      rw [hnat part hne, Nat.mod_eq_of_lt (hfits part hne)]
    have h1 : h.below.toNat = hits buckets values .below := hsame .below (by simp)
    have h2 : h.above.toNat = hits buckets values .above := hsame .above (by simp)
    have h3 : ∑ i, (h.counts i).toNat = ∑ i, hits buckets values (.counts i) :=
      Finset.sum_congr rfl fun i _ => hsame (.counts i) (by simp)
    rw [total, h1, h2, h3, hsum]

end Buckets

/-- **A value is counted where it belongs iff it is a number**; the counters of a fresh epoch add up
to the number of values iff all are numbers and fewer than `2^64` belong to each part. -/
theorem histo_iff (buckets : List UInt64) (epochs : Fin 2 → LensHistoEpoch) (epoch : Fin 2)
    (hok : histoBucketsOk (buckets.map UInt64.toNat) = true)
    (hexact : ∀ b ∈ buckets, doubleOf b = b.toNat) :
    (∀ v, Classified epochs buckets epoch v ↔ v ≠ .nan) ∧
      ((∀ part, (epochs epoch).get part = 0) → ∀ values, Totals epochs buckets epoch values ↔
        (∀ v ∈ values, v ≠ .nan) ∧ ∀ part, part ≠ .value → hits buckets values part < 2 ^ 64) := by
  obtain ⟨hlen, hinc⟩ := histoBucketsOk_iff.mp hok
  rw [List.length_map] at hlen
  rw [List.pairwise_map] at hinc
  have hinc : buckets.Pairwise (· < ·) := hinc.imp fun h => UInt64.lt_iff_toNat_lt.mpr h
  refine ⟨classified_iff hinc hlen hexact epochs epoch, fun hzero values => ?_⟩
  constructor
  · rintro ⟨epochs', hrun, htotal⟩
    have hnum := ne_nan_of_recordAll hrun
    obtain ⟨epochs1, heq, hget⟩ := recordAll_spec hrun
    cases heq
    refine ⟨hnum, (total_eq_length_iff (fun part hne => ?_) fun v hv =>
      exists_histoPart hexact hlen (hnum v hv)).mp htotal⟩
    rw [hget part hne, hzero part, UInt64.zero_add]
    rfl
  · rintro ⟨hnum, hfits⟩
    obtain ⟨lens, hrun⟩ := recordAll_returns hlen hexact epoch values epochs hnum
    obtain ⟨epochs', rfl, hget⟩ := recordAll_spec hrun
    refine ⟨epochs', hrun, (total_eq_length_iff (fun part hne => ?_) fun v hv =>
      exists_histoPart hexact hlen (hnum v hv)).mpr hfits⟩
    rw [hget part hne, hzero part, UInt64.zero_add]
    rfl

/-- The empty counters of a histogram. -/
def noCounts : Fin 2 → LensHistoEpoch := fun _ => ⟨0, 0, fun _ => 0⟩

theorem noCounts_get (epoch : Fin 2) (part : Part) : (noCounts epoch).get part = 0 := by
  cases part with
  | _ => rfl

/-- Bounds at 10, 20 and 30: the value 20 is counted, and so are all numbers of a list. -/
theorem histo_iff_three : (Classified noCounts [10, 20, 30] 0 (.fin 20) ↔ Double.fin 20 ≠ .nan) ∧
    (Totals noCounts [10, 20, 30] 0 [.negInf, .fin 20, .fin 30] ↔
      (∀ v ∈ [Double.negInf, .fin 20, .fin 30], v ≠ .nan) ∧
        ∀ part, part ≠ .value → hits [10, 20, 30] [.negInf, .fin 20, .fin 30] part < 2 ^ 64) :=
  have hlt : ∀ b ∈ ([10, 20, 30] : List UInt64), b.toNat < 2 ^ 53 := by simp
  have h := histo_iff [10, 20, 30] noCounts 0 (by decide) fun b hb => doubleOf_of_lt (hlt b hb)
  ⟨h.1 (.fin 20), h.2 (noCounts_get 0) [.negInf, .fin 20, .fin 30]⟩

/-- **What is not a number** aborts the program. -/
theorem histo_nan : lensHistoInc (.histo noCounts [10, 20]) 0 .nan = .error .abort ∧
    ¬ Classified noCounts [10, 20] 0 .nan := by
  refine ⟨rfl, ?_⟩
  rintro ⟨part, epochs', hrun, -⟩
  cases hrun

end Optics.HistoCounts
