import Optics.LensQuantile

/-! # Quantiles of several lenses

`lens_quantile_read` merges the lenses of one name into one record: the counts are added, and one of
the estimates is kept, at random. A record that has not been read into is told by its quantile, which
is zero then; lenses with the target 0 leave it at zero, so that each read starts the record over.

`merged_iff` says when the record ends up with the sum of the counts, and with the estimate and the
count of one of the lenses. -/

namespace Optics.QuantileMerge

open Optics.Base Optics.LensSlots Optics.Doubles Optics.Utils.Random Optics.LensQuantile

section Reads
variable {σ : Type} (fpu : Fpu) (rng : Rng σ) (epoch : Fin 2)

/-- The lenses read one after the other, and what the reads return. -/
def readAll : List LensData → OpticsQuantile → σ → Outcome (List OpticsRet × OpticsQuantile × σ)
  | [], value, s => .ok ([], value, s)
  | lens :: lenses, value, s => do
    let (ret, value, _, s) ← lensQuantileRead fpu rng lens epoch value s
    let (rets, value, s) ← readAll lenses value s
    .ok (ret :: rets, value, s)

end Reads

/-- The sum of the counts of an epoch. -/
def counts (epoch : Fin 2) (lenses : List LensQuantile) : ℕ :=
  (lenses.map fun lens => (lens.count epoch).toNat).sum

theorem counts_concat (epoch : Fin 2) (lenses : List LensQuantile) (lens : LensQuantile) :
    counts epoch (lenses ++ [lens]) = counts epoch lenses + (lens.count epoch).toNat := by
  rw [counts, List.map_append, List.sum_append, List.map_singleton, List.sum_singleton, counts]

/-- The counts are zero iff all lenses are idle. -/
theorem counts_eq_zero_iff {epoch : Fin 2} {lenses : List LensQuantile} :
    counts epoch lenses = 0 ↔ ∀ lens ∈ lenses, lens.count epoch = 0 := by
  rw [counts, List.sum_eq_zero_iff_forall_eq_nat, List.forall_mem_map]
  exact forall₂_congr fun lens _ => UInt64.toNat_inj (b := 0)

section Merge
variable {σ : Type} {fpu : Fpu} {rng : Rng σ} {epoch : Fin 2}

/-- The record after some lenses have been read: the sample and its count are those of one of them. -/
structure Picked (fpu : Fpu) (epoch : Fin 2) (q : ℚ) (read : List LensQuantile)
    (value : OpticsQuantile) : Prop where
  quantile : value.quantile = .fin q
  sample : ∃ lens ∈ read, value.sample = calculateQuantile fpu lens ∧
    value.sampleCount = lens.count epoch

theorem Picked.mono {q : ℚ} {read more : List LensQuantile} {value : OpticsQuantile}
    (h : Picked fpu epoch q read value) (hsub : read ⊆ more) : Picked fpu epoch q more value where
  quantile := h.quantile
  sample := by
    obtain ⟨lens, hlens, hvalue⟩ := h.sample
    exact ⟨lens, hsub hlens, hvalue⟩

/-- **The first read**, which a quantile of zero stands for, takes over the lens. -/
theorem read_first (fpu : Fpu) (rng : Rng σ) (epoch : Fin 2) {lens : LensQuantile} {q : ℚ}
    (hq : lens.targetQuantile = .fin q) {value : OpticsQuantile} (hzero : value.quantile = .fin 0)
    (s : σ) :
    ∃ value' lens', lensQuantileRead fpu rng (.quantile lens) epoch value s =
        .ok (.ok, value', lens', s) ∧
      Picked fpu epoch q [lens] value' ∧ value'.count = lens.count epoch := by
  have hsame : same value.quantile (.fin 0) = true := by
    rw [hzero]
    rfl
  refine ⟨_, _, if_pos hsame, ⟨hq, lens, List.mem_singleton_self lens, rfl, rfl⟩, rfl⟩

/-- **A later read** adds the count, and keeps the sample or takes that of the lens. -/
theorem read_more (hprob : ∀ s p, ∃ r, rng.genProb s p = .ok r) {lens : LensQuantile} {q : ℚ}
    (hq : lens.targetQuantile = .fin q) (hq0 : q ≠ 0) {read : List LensQuantile}
    {value : OpticsQuantile} (h : Picked fpu epoch q read value) (s : σ) :
    ∃ value' lens' s', lensQuantileRead fpu rng (.quantile lens) epoch value s =
        .ok (.ok, value', lens', s') ∧
      Picked fpu epoch q (read ++ [lens]) value' ∧
      value'.count = value.count + lens.count epoch := by
  have hzero : same value.quantile (.fin 0) = false := by
    rw [h.quantile]
    exact decide_eq_false hq0
  have hsame : same value.quantile lens.targetQuantile = true := by
    rw [h.quantile, hq]
    exact decide_eq_true rfl
  obtain ⟨⟨pick, s'⟩, hpick⟩ := pickSample_returns fpu hprob lens (lens.count epoch)
    (calculateQuantile fpu lens) value s
  let kept : OpticsQuantile :=
    if pick then { value with sample := calculateQuantile fpu lens, sampleCount := lens.count epoch }
    else value
  refine ⟨{ kept with count := kept.count + lens.count epoch },
    .quantile { lens with count := Function.update lens.count epoch 0 }, s', ?_, ?_, ?_⟩
  · unfold lensQuantileRead
    dsimp only
    rw [if_neg (by rw [hzero]; decide), if_neg (by rw [hsame]; decide), hpick, ok_bind]
  · cases pick with
    | false => exact ⟨h.quantile, (h.mono (List.subset_append_left _ _)).sample⟩
    | true =>
      exact ⟨h.quantile, lens, List.mem_append_right _ (List.mem_singleton_self lens), rfl, rfl⟩
  · cases pick with
    | false => rfl
    | true => rfl

/-- **The later reads**, one after the other. -/
theorem readAll_more (fpu : Fpu) (epoch : Fin 2) (hprob : ∀ s p, ∃ r, rng.genProb s p = .ok r)
    {q : ℚ} (hq0 : q ≠ 0) :
    ∀ (lenses read : List LensQuantile) (value : OpticsQuantile) (s : σ),
      (∀ lens ∈ lenses, lens.targetQuantile = .fin q) → Picked fpu epoch q read value →
      value.count = .ofNat (counts epoch read) →
      ∃ rets value' s', readAll fpu rng epoch (lenses.map .quantile) value s =
          .ok (rets, value', s') ∧ (∀ ret ∈ rets, ret = .ok) ∧
        Picked fpu epoch q (read ++ lenses) value' ∧
        value'.count = .ofNat (counts epoch (read ++ lenses))
  | [], read, value, s, _, h, hcount =>
    ⟨[], value, s, rfl, fun _ hret => absurd hret List.not_mem_nil,
      by rwa [List.append_nil], by rwa [List.append_nil]⟩
  | lens :: lenses, read, value, s, htargets, h, hcount => by
    obtain ⟨value1, lens1, s1, hread, h1, hcount1⟩ :=
      read_more hprob (htargets lens List.mem_cons_self) hq0 h s
    have hsum : value1.count = .ofNat (counts epoch (read ++ [lens])) := by
      rw [hcount1, hcount, counts_concat, UInt64.ofNat_add, UInt64.ofNat_toNat]
    obtain ⟨rets, value', s', hrest, hrets, h', hcount'⟩ := readAll_more fpu epoch hprob
      hq0 lenses (read ++ [lens]) value1 s1 (fun l hl => htargets l (List.mem_cons_of_mem _ hl)) h1 hsum
    rw [List.append_assoc, List.singleton_append] at h' hcount'
    refine ⟨.ok :: rets, value', s', ?_, fun ret hret => ?_, h', hcount'⟩
    · rw [List.map_cons, readAll, hread, ok_bind]
      dsimp only
      rw [hrest, ok_bind]
    · rcases List.mem_cons.mp hret with rfl | hret
      · rfl
      · exact hrets ret hret

/-- **Reads of lenses with the target 0** start the record over: the last one is left. -/
theorem readAll_zero (fpu : Fpu) (rng : Rng σ) (epoch : Fin 2) : ∀ (lenses : List LensQuantile)
    (last : LensQuantile)
    (value : OpticsQuantile) (s : σ),
    (∀ lens ∈ lenses ++ [last], lens.targetQuantile = .fin 0) → value.quantile = .fin 0 →
    ∃ rets value' s', readAll fpu rng epoch ((lenses ++ [last]).map .quantile) value s =
        .ok (rets, value', s') ∧ (∀ ret ∈ rets, ret = .ok) ∧
      Picked fpu epoch 0 [last] value' ∧ value'.count = last.count epoch
  | [], last, value, s, htargets, hzero => by
    obtain ⟨value', lens', hread, h, hcount⟩ := read_first fpu rng epoch
      (htargets last List.mem_cons_self) hzero s
    refine ⟨[.ok], value', s, ?_, fun ret hret => List.mem_singleton.mp hret, h, hcount⟩
    rw [List.nil_append, List.map_singleton, readAll, hread, ok_bind]
    rfl
  | lens :: lenses, last, value, s, htargets, hzero => by
    obtain ⟨value1, lens1, hread, h1, -⟩ := read_first fpu rng epoch
      (htargets lens List.mem_cons_self) hzero s
    obtain ⟨rets, value', s', hrest, hrets, h', hcount'⟩ := readAll_zero fpu rng epoch lenses last
      value1 s
      (fun l hl => htargets l (List.mem_cons_of_mem _ hl)) h1.quantile
    refine ⟨.ok :: rets, value', s', ?_, fun ret hret => ?_, h', hcount'⟩
    · rw [List.cons_append, List.map_cons, readAll, hread, ok_bind]
      dsimp only
      rw [hrest, ok_bind]
    · rcases List.mem_cons.mp hret with rfl | hret
      · rfl
      · exact hrets ret hret

end Merge

/-- All reads return `optics_ok`, the counts are summed up, and the sample with its count is that of
one of the lenses. -/
def Merged {σ : Type} (fpu : Fpu) (rng : Rng σ) (epoch : Fin 2) (q : ℚ) (lenses : List LensQuantile)
    (s : σ) : Prop :=
  ∃ rets value s', readAll fpu rng epoch (lenses.map .quantile) OpticsQuantile.zero s =
      .ok (rets, value, s') ∧ (∀ ret ∈ rets, ret = .ok) ∧
    value.count.toNat = counts epoch lenses ∧ value.quantile = .fin q ∧
    ∃ lens ∈ lenses, value.sample = calculateQuantile fpu lens ∧
      value.sampleCount = lens.count epoch

/-- The target is not zero and the sum of the counts is a word; or it is zero, and all lenses but the
last are idle. -/
def Countable (epoch : Fin 2) (q : ℚ) (lenses : List LensQuantile) : Prop :=
  if q ≠ 0 then counts epoch lenses < 2 ^ 64 else ∀ lens ∈ lenses.dropLast, lens.count epoch = 0

/-- **Lenses are merged** iff their target is not zero, or only the last of them has counted. -/
theorem merged_iff {σ : Type} (fpu : Fpu) (rng : Rng σ) (epoch : Fin 2) (q : ℚ)
    (lenses : List LensQuantile) (s : σ) (hne : lenses ≠ [])
    (htargets : ∀ lens ∈ lenses, lens.targetQuantile = .fin q)
    (hprob : ∀ s p, ∃ r, rng.genProb s p = .ok r) :
    Merged fpu rng epoch q lenses s ↔ Countable epoch q lenses := by
  by_cases hq0 : q = 0
  · subst hq0
    obtain ⟨init, last, rfl⟩ : ∃ init last, lenses = init ++ [last] :=
      ⟨_, _, (List.dropLast_concat_getLast hne).symm⟩
    obtain ⟨rets, value, s', hrun, hrets, hpicked, hcount⟩ := readAll_zero fpu rng epoch init last
      OpticsQuantile.zero s htargets rfl
    have hsum := counts_concat epoch init last
    rw [Countable, if_neg (not_not.mpr rfl), List.dropLast_concat, ← counts_eq_zero_iff]
    constructor
    · rintro ⟨rets1, value1, s1, hrun1, -, hcount1, -⟩
      cases hrun.symm.trans hrun1
      rw [hcount, hsum] at hcount1
      omega
    · intro hzero
      refine ⟨rets, value, s', hrun, hrets, by rw [hcount, hsum, hzero, Nat.zero_add],
        hpicked.quantile, (hpicked.mono (List.subset_append_right _ _)).sample⟩
  · obtain ⟨first, rest, rfl⟩ := List.exists_cons_of_ne_nil hne
    obtain ⟨value1, lens1, hread, h1, hcount1⟩ := read_first fpu rng epoch
      (htargets first List.mem_cons_self) (show OpticsQuantile.zero.quantile = .fin 0 from rfl) s
    obtain ⟨rets, value, s', hrest, hrets, hpicked, hcount⟩ := readAll_more fpu epoch
      hprob hq0 rest [first] value1 s
      (fun l hl => htargets l (List.mem_cons_of_mem _ hl)) h1 (by simp [counts, hcount1])
    have hrun : readAll fpu rng epoch ((first :: rest).map .quantile) OpticsQuantile.zero s =
        .ok (.ok :: rets, value, s') := by
      rw [List.map_cons, readAll, hread, ok_bind]
      dsimp only
      rw [hrest, ok_bind]
    have hmod : value.count.toNat = counts epoch (first :: rest) % 2 ^ 64 := by
      rw [hcount]
      rfl
    rw [Countable, if_pos hq0]
    constructor
    · rintro ⟨rets1, value2, s1, hrun1, -, hcount2, -⟩
      cases hrun.symm.trans hrun1
      omega
    · intro hlt
      refine ⟨.ok :: rets, value, s', hrun, fun ret hret => ?_, by omega, hpicked.quantile,
        hpicked.sample⟩
      rcases List.mem_cons.mp hret with rfl | hret
      · rfl
      · exact hrets ret hret

/-- A lens with a target and a count, its estimate 7. -/
def lensOf (target : ℚ) (count : UInt64) : LensQuantile :=
  ⟨.fin target, .fin 7, .fin 1, 0, fun _ => count⟩

/-- A processor with doubles in binary64 that converts to a word whatever it is given. -/
def converting : Fpu :=
  { binary64 with
    toUInt64 := fun d => .ok (match uint64Of d with
      | .ok n => n
      | .error _ => 2 ^ 63) }

/-- Lenses for the median that have counted 3, 0 and 4 values. -/
theorem merged_iff_three :
    Merged converting (xorshift converting) 0 (1 / 2)
        [lensOf (1 / 2) 3, lensOf (1 / 2) 0, lensOf (1 / 2) 4] 1 ↔
      Countable 0 (1 / 2) [lensOf (1 / 2) 3, lensOf (1 / 2) 0, lensOf (1 / 2) 4] :=
  merged_iff converting (xorshift converting) 0 (1 / 2)
    [lensOf (1 / 2) 3, lensOf (1 / 2) 0, lensOf (1 / 2) 4] 1 (List.cons_ne_nil _ _)
    (by simp [lensOf]) fun _ _ => ⟨_, rfl⟩

/-- Two lenses for the minimum that have counted 3 and 4 values: the record counts 4. -/
theorem merge_restarts : ¬ Merged binary64 (xorshift binary64) 0 0 [lensOf 0 3, lensOf 0 4] 1 ∧
    ∃ rets value s', readAll binary64 (xorshift binary64) 0 ([lensOf 0 3, lensOf 0 4].map .quantile)
      OpticsQuantile.zero 1 = .ok (rets, value, s') ∧ value.count = 4 := by
  have hcount : (readAll binary64 (xorshift binary64) 0 ([lensOf 0 3, lensOf 0 4].map .quantile)
      OpticsQuantile.zero 1).map (fun r => r.2.1.count) = .ok 4 := by decide +kernel
  obtain ⟨⟨rets, value, s'⟩, hrun⟩ := exists_of_isOk (x := readAll binary64 (xorshift binary64) 0
    ([lensOf 0 3, lensOf 0 4].map .quantile) OpticsQuantile.zero 1) (by decide +kernel)
  rw [hrun] at hcount
  have hfour : value.count = 4 := Except.ok.inj hcount
  refine ⟨?_, rets, value, s', hrun, hfour⟩
  rintro ⟨rets', value', s1, hrun', -, hsum, -⟩
  cases hrun.symm.trans hrun'
  rw [hfour] at hsum
  revert hsum
  decide

end Optics.QuantileMerge
