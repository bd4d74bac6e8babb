import Optics.DistRounds

/-! # The maximum of a distribution

The maximum of the record of a round should be the greatest of the values (`MaxIsGreatest`). The
slots and the record start at 0 and only go up from there, so it is when one of the values is at
least 0 (`rounds_max_iff`). -/

namespace Optics.DistMax

open Optics.Base Optics.Lenses Optics.LensSlots Optics.Doubles Optics.Utils.Random Optics.LensDist
open Optics.DistRounds
open Optics.Lib.Sorting (mergeSort)

section Law
variable {ι : Type}

/-- Every read returns `optics_ok`, and the maximum is the greatest value. -/
def MaxIsGreatest (r : Round ι) (result : List OpticsRet × OpticsDist) : Prop :=
  (∀ ret ∈ result.1, ret = .ok) ∧ ∃ m, result.2.max = .fin m ∧ IsGreatest r.values m

/-- A value of the round is at least 0. -/
def ReachesZero (r : Round ι) : Prop := ∃ v ∈ r.values, 0 ≤ v

theorem values_eq (r : Round ι) : r.values = {v | v ∈ r.records.map Prod.snd} := by
  ext v
  simp [Round.values]

end Law

/-! ### Maxima that start at 0 -/

/-- The greatest of some numbers and 0. -/
def maxOf (l : List ℚ) : ℚ := l.foldr max 0

theorem maxOf_cons (v : ℚ) (l : List ℚ) : maxOf (v :: l) = max v (maxOf l) := rfl

theorem maxOf_le {l : List ℚ} {m : ℚ} : maxOf l ≤ m ↔ 0 ≤ m ∧ ∀ v ∈ l, v ≤ m := by
  induction l with
  | nil => simp [maxOf]
  | cons v l ih =>
    rw [maxOf_cons, max_le_iff, ih]
    simp only [List.mem_cons, forall_eq_or_imp]
    tauto

theorem maxOf_mem_or (l : List ℚ) : maxOf l ∈ l ∨ maxOf l = 0 := by
  induction l with
  | nil => exact .inr rfl
  | cons v l ih =>
    rw [maxOf_cons]
    rcases max_choice v (maxOf l) with h | h
    · exact .inl (by rw [h]; exact List.mem_cons_self)
    · rw [h]
      exact ih.imp_left (List.mem_cons_of_mem v)

/-- A maximum that starts at 0 is the greatest number if one of them is at least 0. -/
theorem isGreatest_maxOf_iff {l : List ℚ} : IsGreatest {v | v ∈ l} (maxOf l) ↔ ∃ v ∈ l, 0 ≤ v := by
  obtain ⟨h0, hle⟩ := maxOf_le.mp (le_refl (maxOf l))
  constructor
  · exact fun h => ⟨maxOf l, h.1, h0⟩
  · rintro ⟨v, hv, hv0⟩
    refine ⟨?_, hle⟩
    rcases maxOf_mem_or l with h | h
    · exact h
    · have hv1 : v = maxOf l := le_antisymm (hle v hv) (h.trans_le hv0)
      exact hv1 ▸ hv

/-! ### What records and reads do to the maxima -/

section Max
variable {ι σ : Type} [DecidableEq ι] {fpu : Fpu} {rng : Rng σ} {epoch : Fin 2}

/-- A lens for a distribution whose slot is not locked and has a maximum. -/
def HasMax (epoch : Fin 2) (lens : LensData) (m : ℚ) : Prop :=
  ∃ epochs, lens = .dist epochs ∧ (epochs epoch).lock = false ∧ (epochs epoch).max = .fin m

/-- Slots just cleared, by the allocation or by a read. -/
def Cleared (epoch : Fin 2) (lenses : ι → LensData) : Prop := ∀ i, HasMax epoch (lenses i) 0

theorem recordBody_max {dist : LensDistEpoch} {m : ℚ} (h : dist.max = .fin m) (v : ℚ) (s : σ) :
    (recordBody rng dist (.fin v) s).1.max = .fin (max m v) := by
  have hmax : (recordBody rng dist (.fin v) s).1.max =
      if less dist.max (.fin v) then .fin v else dist.max := rfl
  rw [hmax, h]
  by_cases hlt : m < v
  · simp [less, hlt, max_eq_right hlt.le]
  · simp [less, hlt, max_eq_left (not_lt.mp hlt)]

theorem mergeMax_max {value : OpticsDist} {m m' : ℚ} (h : value.max = .fin m) :
    (value.mergeMax (.fin m')).max = .fin (max m m') := by
  unfold OpticsDist.mergeMax
  rw [h]
  by_cases hlt : m < m'
  · simp [less, hlt, max_eq_right hlt.le]
  · simp [less, hlt, max_eq_left (not_lt.mp hlt)]

/-- **A record raises the maximum** of its slot. -/
theorem HasMax.record {lens : LensData} {m : ℚ} (h : HasMax epoch lens m) (rng : Rng σ) (v : ℚ)
    (s : σ) : ∃ lens' s', lensDistRecord rng lens epoch (.fin v) s = .ok (true, lens', s') ∧
      HasMax epoch lens' (max m v) := by
  obtain ⟨epochs, rfl, hlock, hmax⟩ := h
  refine ⟨_, _, lensDistRecord_spec hlock (.fin v) s, _, rfl, ?_, ?_⟩
  · rw [Function.update_self]
    exact hlock
  · rw [Function.update_self]
    exact recordBody_max hmax v s

/-- **A read takes the maximum over** and leaves the slot cleared. -/
theorem HasMax.read {lens lens' : LensData} {m m' : ℚ} {value value' : OpticsDist} {s s' : σ}
    {ret : OpticsRet} (h : HasMax epoch lens m) (hv : value.max = .fin m')
    (hr : lensDistRead fpu rng lens epoch value s = .ok (ret, value', lens', s')) :
    ret = .ok ∧ HasMax epoch lens' 0 ∧ value'.max = .fin (max m' m) := by
  obtain ⟨epochs, rfl, hlock, hmax⟩ := h
  rw [lensDistRead_spec hlock] at hr
  obtain ⟨⟨v1, s1⟩, h1, hr⟩ := Base.bind_eq_ok.mp hr
  cases hr
  refine ⟨rfl, ⟨_, rfl, ?_, ?_⟩, ?_⟩
  · rw [Function.update_self]
    rfl
  · rw [Function.update_self]
    rfl
  · rw [OpticsDist.mergeSamples_max h1, hmax]
    exact mergeMax_max hv

theorem runRecords_max (rng : Rng σ) (records : List (ι × ℚ)) : ∀ {lenses : ι → LensData}
    {max0 : ι → ℚ} (s : σ),
    (∀ i, HasMax epoch (lenses i) (max0 i)) →
    ∃ lenses' s', runRecords rng epoch records lenses s = .ok (lenses', s') ∧
      ∀ i, HasMax epoch (lenses' i) ((valuesOf i records).foldl max (max0 i)) := by
  induction records with
  | nil => exact fun s h => ⟨_, s, rfl, h⟩
  | cons x rest ih =>
    obtain ⟨i, v⟩ := x
    intro lenses max0 s h
    obtain ⟨lens, s1, hrec, hlens⟩ := (h i).record rng v s
    have h1 : ∀ j, HasMax epoch (Function.update lenses i lens j)
        (Function.update max0 i (max (max0 i) v) j) := forall_update h i hlens
    obtain ⟨lenses', s', hrun, hmax⟩ := ih s1 h1
    refine ⟨lenses', s', ?_, fun j => ?_⟩
    · rw [runRecords, hrec]
      exact hrun
    · have hj := hmax j
      rw [valuesOf_cons]
      by_cases hij : i = j
      · subst hij
        simpa using hj
      · have hji : ¬ j = i := fun hc => hij hc.symm
        simpa [hji, hij] using hj

/-- The maximum after some reads: what is left of each lens counts once. -/
theorem runReads_max {reads : List ι} : ∀ {lenses lenses' : ι → LensData} {max0 : ι → ℚ}
    {value value' : OpticsDist} {m : ℚ} {rets : List OpticsRet} {s s' : σ},
    (∀ i, HasMax epoch (lenses i) (max0 i)) → (∀ i, 0 ≤ max0 i) → value.max = .fin m → 0 ≤ m →
    runReads fpu rng epoch reads value lenses s = .ok (rets, value', lenses', s') →
    (∀ ret ∈ rets, ret = .ok) ∧
      (∀ i, HasMax epoch (lenses' i) (if i ∈ reads then 0 else max0 i)) ∧
      ∃ m', value'.max = .fin m' ∧ ∀ b, m' ≤ b ↔ m ≤ b ∧ ∀ i ∈ reads, max0 i ≤ b := by
  induction reads with
  | nil =>
    intro lenses lenses' max0 value value' m rets s s' h _ hv _ hrun
    cases hrun
    exact ⟨by simp, by simpa using h, m, hv, by simp⟩
  | cons i rest ih =>
    intro lenses lenses' max0 value value' m rets s s' h h0 hv hm hrun
    obtain ⟨⟨ret1, v1, lens1, s1⟩, hread, hrun⟩ := Base.bind_eq_ok.mp hrun
    obtain ⟨⟨rets2, v2, lenses2, s2⟩, hrest, hrun⟩ := Base.bind_eq_ok.mp hrun
    cases hrun
    obtain ⟨hret, hclr, hmax⟩ := (h i).read hv hread
    have h1 : ∀ j, HasMax epoch (Function.update lenses i lens1 j) (Function.update max0 i 0 j) :=
      forall_update h i hclr
    have h2 : ∀ j, 0 ≤ Function.update max0 i 0 j :=
      (Function.forall_update_iff _ fun _ => (0 ≤ ·)).mpr ⟨le_rfl, fun j _ => h0 j⟩
    obtain ⟨hrets, hleft, m', hm', hle⟩ := ih h1 h2 hmax (hm.trans (le_max_left _ _)) hrest
    refine ⟨?_, fun j => ?_, m', hm', fun b => ?_⟩
    · simpa [hret] using hrets
    · have hj := hleft j
      by_cases hji : j = i
      · subst hji
        simpa using hj
      · simpa [hji] using hj
    · rw [hle, max_le_iff]
      simp only [List.mem_cons, forall_eq_or_imp]
      constructor
      · rintro ⟨⟨hmb, hib⟩, hrest⟩
        refine ⟨hmb, hib, fun j hj => ?_⟩
        by_cases hji : j = i
        · exact hji ▸ hib
        · have := hrest j hj
          rwa [Function.update_of_ne hji] at this
      · rintro ⟨hmb, hib, hrest⟩
        refine ⟨⟨hmb, hib⟩, fun j hj => ?_⟩
        by_cases hji : j = i
        · rw [hji, Function.update_self]
          exact hm.trans hmb
        · rw [Function.update_of_ne hji]
          exact hrest j hj

/-! ### Rounds -/

theorem foldl_max_le {l : List ℚ} {m b : ℚ} : l.foldl max m ≤ b ↔ m ≤ b ∧ ∀ v ∈ l, v ≤ b := by
  induction l generalizing m with
  | nil => simp
  | cons v l ih =>
    rw [List.foldl_cons, ih, max_le_iff]
    simp only [List.mem_cons, forall_eq_or_imp]
    tauto

/-- **A round**, from cleared slots to cleared slots: the maximum is the greatest of the values and
0. -/
theorem runRound_max {r : Round ι} (hr : r.Complete) {lenses lenses' : ι → LensData}
    (h : Cleared epoch lenses) {rets : List OpticsRet} {value : OpticsDist} {s s' : σ}
    (hrun : runRound fpu rng epoch r lenses s = .ok (rets, value, lenses', s')) :
    (∀ ret ∈ rets, ret = .ok) ∧ Cleared epoch lenses' ∧
      value.max = .fin (maxOf (r.records.map Prod.snd)) := by
  obtain ⟨lenses1, s1, hrec, hmax⟩ := runRecords_max rng r.records s h
  have hreads : runReads fpu rng epoch r.reads OpticsDist.zero lenses1 s1 =
      .ok (rets, value, lenses', s') := by
    rw [runRound, hrec] at hrun
    exact hrun
  have hnonneg : ∀ i, 0 ≤ (valuesOf i r.records).foldl max 0 := fun i => (foldl_max_le.mp le_rfl).1
  obtain ⟨hrets, hleft, m, hm, hle⟩ := runReads_max hmax hnonneg rfl le_rfl hreads
  refine ⟨hrets, fun i => ?_, ?_⟩
  · have hi := hleft i
    by_cases hir : i ∈ r.reads
    · rwa [if_pos hir] at hi
    · have hnil : valuesOf i r.records = [] := List.eq_nil_iff_forall_not_mem.mpr fun v hv =>
        hir (hr.covered _ (mem_valuesOf.mp hv))
      rwa [if_neg hir, hnil] at hi
  · have heq : m = maxOf (r.records.map Prod.snd) := by
      refine eq_of_forall_ge_iff fun b => ?_
      rw [hle, maxOf_le]
      refine and_congr_right fun h0 => ?_
      constructor
      · intro hb v hv
        obtain ⟨⟨i, w⟩, hx, rfl⟩ := List.mem_map.mp hv
        exact (foldl_max_le.mp (hb i (hr.covered _ hx))).2 w (mem_valuesOf.mpr hx)
      · intro hb i _
        refine foldl_max_le.mpr ⟨h0, fun v hv => ?_⟩
        exact hb v (List.mem_map_of_mem (f := Prod.snd) (mem_valuesOf.mp hv))
    rw [hm, heq]

/-- **The maximum of a round is its greatest value** if and only if a value is at least 0. -/
theorem runRound_max_iff {r : Round ι} (hr : r.Complete) {lenses lenses' : ι → LensData}
    (h : Cleared epoch lenses) {rets : List OpticsRet} {value : OpticsDist} {s s' : σ}
    (hrun : runRound fpu rng epoch r lenses s = .ok (rets, value, lenses', s')) :
    MaxIsGreatest r (rets, value) ↔ ReachesZero r := by
  obtain ⟨hrets, -, hmax⟩ := runRound_max hr h hrun
  unfold MaxIsGreatest ReachesZero
  rw [values_eq]
  constructor
  · rintro ⟨-, m, hm, hg⟩
    rw [hmax] at hm
    cases hm
    exact isGreatest_maxOf_iff.mp hg
  · exact fun hz => ⟨hrets, _, hmax, isGreatest_maxOf_iff.mpr hz⟩

/-- **Every round reports its own greatest value** if and only if every round has a value that is at
least 0. -/
theorem rounds_max_iff {rounds : List (Round ι)} (hrounds : ∀ r ∈ rounds, r.Complete)
    {lenses lenses' : ι → LensData} (h : Cleared epoch lenses)
    {results : List (List OpticsRet × OpticsDist)} {s s' : σ}
    (hrun : runRounds fpu rng epoch rounds lenses s = .ok (results, lenses', s')) :
    List.Forall₂ MaxIsGreatest rounds results ↔ ∀ r ∈ rounds, ReachesZero r := by
  induction rounds generalizing lenses lenses' results s s' with
  | nil =>
    cases hrun
    simp
  | cons r rest ih =>
    obtain ⟨⟨rets, value, lenses1, s1⟩, hround, hrun⟩ := Base.bind_eq_ok.mp hrun
    obtain ⟨⟨results2, lenses2, s2⟩, hrest, hrun⟩ := Base.bind_eq_ok.mp hrun
    cases hrun
    have hr := hrounds r List.mem_cons_self
    obtain ⟨-, hclr, -⟩ := runRound_max hr h hround
    rw [List.forall₂_cons, runRound_max_iff hr h hround,
      ih (fun r' h' => hrounds r' (List.mem_cons_of_mem _ h')) hclr hrest, List.forall_mem_cons]

end Max

/-! ### Rounds of two lenses -/

theorem cleared_fresh {ι : Type} : Cleared 0 fun _ : ι => freshDist := fun _ => ⟨_, rfl, rfl, rfl⟩

/-- A round whose greatest value is positive, and one of negative values. -/
def mixedRounds : List (Round Bool) :=
  [⟨[(true, 3), (false, -2), (true, -7)], [true, false]⟩, ⟨[(false, -1), (true, -4)], [false, true]⟩]

theorem mixedRounds_complete : ∀ r ∈ mixedRounds, r.Complete := by
  have hboth : ∀ r ∈ mixedRounds, r.records ≠ [] ∧ ∀ x ∈ r.records, x.1 ∈ r.reads := by
    decide +kernel
  exact fun r hr => ⟨(hboth r hr).1, (hboth r hr).2⟩

theorem rounds_max_two : ∃ results lenses' s', runRounds binary64 (xorshift binary64) 0 mixedRounds
    (fun _ => freshDist) 1 = .ok (results, lenses', s') ∧
      (List.Forall₂ MaxIsGreatest mixedRounds results ↔ ∀ r ∈ mixedRounds, ReachesZero r) := by
  obtain ⟨⟨results, lenses', s'⟩, h⟩ := exists_of_isOk (x := runRounds binary64 (xorshift binary64) 0
    mixedRounds (fun _ => freshDist) 1) (by decide +kernel)
  exact ⟨results, lenses', s', h, rounds_max_iff mixedRounds_complete cleared_fresh h⟩

/-- A value recorded into one lens. -/
def single (v : ℚ) : Round Unit := ⟨[((), v)], [()]⟩

theorem single_complete (v : ℚ) : (single v).Complete := ⟨by simp [single], by simp [single]⟩

/-- Of -1 alone the maximum is 0. -/
theorem rounds_max_negative : ∃ results lenses' s', runRounds rational (xorshift rational) 0
    [single (-1)] (fun _ => freshDist) 1 = .ok (results, lenses', s') ∧
      ¬ List.Forall₂ MaxIsGreatest [single (-1)] results := by
  obtain ⟨⟨results, lenses', s'⟩, h⟩ := exists_of_isOk (x := runRounds rational (xorshift rational) 0
    [single (-1)] (fun _ => freshDist) 1) (by decide +kernel)
  refine ⟨results, lenses', s', h, ?_⟩
  obtain ⟨⟨rets, value, lenses1, s1⟩, hround, h⟩ := Base.bind_eq_ok.mp h
  cases h
  intro hmax
  have hone := (runRound_max_iff (single_complete (-1)) cleared_fresh hround).mp
    (List.forall₂_cons.mp hmax).1
  obtain ⟨v, ⟨i, hv⟩, h0⟩ := hone
  have hv : v = -1 := by simpa [single] using hv
  subst hv
  exact absurd h0 (by norm_num)

end Optics.DistMax
