import Optics.QuantileDraws

/-! # Polls of quantiles

Quantile lenses, one or more for each region, are updated and read into records, in any order. Every
argument a generator is given on the way should be meaningful. An update draws with its target, which
is; a read that merges may draw with 1 if one of the two counts is zero, and with 0 over 0 if both
are.

* `exec_spec`: what an operation draws is meaningful, if the operation `Meets` the condition;
* `exec_iff`: the condition is exact;
* `draws_iff`: the draws of a run whose operations meet it. -/

namespace Optics.QuantileRuns

open Optics.Base Optics.LensSlots Optics.Doubles Optics.Utils.Random Optics.LensQuantile
open Optics.Lib.Binary64 Optics.QuantileDraws

/-! ### Operations -/

/-- The lenses, and the records they are read into. -/
structure Poll (ι κ : Type) where
  lenses : ι → LensData
  records : κ → OpticsQuantile

/-- An update of a lens, a zeroed record, or a read of a lens into a record. -/
inductive Op (ι κ : Type) where
  | update (i : ι) (epoch : Fin 2) (value : Double)
  | zero (j : κ)
  | read (i : ι) (epoch : Fin 2) (j : κ)

section Model
variable {ι κ σ : Type} [DecidableEq ι] [DecidableEq κ] (rng : Rng σ)

def exec (st : Poll ι κ) (op : Op ι κ) (s : σ) : Outcome (Poll ι κ × σ) :=
  match op with
  | .update i epoch value => do
    let (_, lens, s) ← lensQuantileUpdate binary64 rng (st.lenses i) epoch value s
    .ok ({ st with lenses := Function.update st.lenses i lens }, s)
  | .zero j => .ok ({ st with records := Function.update st.records j OpticsQuantile.zero }, s)
  | .read i epoch j => do
    let (_, value, lens, s) ← lensQuantileRead binary64 rng (st.lenses i) epoch (st.records j) s
    .ok (⟨Function.update st.lenses i lens, Function.update st.records j value⟩, s)

/-- Operations one after the other. -/
def run : List (Op ι κ) → Poll ι κ → σ → Outcome (Poll ι κ × σ)
  | [], st, s => .ok (st, s)
  | op :: ops, st, s => do
    let (st, s) ← exec rng st op s
    run ops st s

end Model

/-! ### The condition -/

/-- The target is a double strictly between 0 and 1. -/
def ProperTarget (quantile : LensQuantile) : Prop :=
  ∃ q, quantile.targetQuantile = .fin q ∧ 0 < q ∧ q < 1 ∧ round53 q = q

/-- A quantile lens for such a target. -/
def Proper (lens : LensData) : Prop := ∃ quantile, lens = .quantile quantile ∧ ProperTarget quantile

/-- The read is the first one into the record, or the record is for another target; or the counts are
apart, and if the draw is with 1 less the target, that is not rounded up to 1. -/
def ReadMeets (quantile : LensQuantile) (epoch : Fin 2) (value : OpticsQuantile) : Prop :=
  same value.quantile (.fin 0) = true ∨ same value.quantile quantile.targetQuantile = false ∨
    Apart (quantile.count epoch) value.sampleCount ∧
      (less value.sample (calculateQuantile binary64 quantile) = true ∨
        less (.fin (1 / 2 ^ 54)) quantile.targetQuantile = true)

section Condition
variable {ι κ σ : Type} [DecidableEq ι] [DecidableEq κ]

def Meets (st : Poll ι κ) : Op ι κ → Prop
  | .read i epoch j => ∀ quantile, st.lenses i = .quantile quantile →
      ReadMeets quantile epoch (st.records j)
  | _ => True

/-- Every operation of the run meets the condition. -/
def AllMeet (rng : Rng σ) : List (Op ι κ) → Poll ι κ → σ → Prop
  | [], _, _ => True
  | op :: ops, st, s => Meets st op ∧
      ∀ st' s', exec rng st op s = .ok (st', s') → AllMeet rng ops st' s'

end Condition

/-- The draw is one of a probability that is meaningful. -/
def MeaningfulDraw (draw : Draw) : Prop := ∃ p, draw = .prob p ∧ Meaningful p

/-! ### One draw -/

section Draws
variable {σ : Type} {rng : Rng σ}

theorem meaningful_target {q : ℚ} (hpos : 0 < q) (hlt : q < 1) (hround : round53 q = q) :
    Meaningful (.fin q) := by
  rw [meaningful_fin_iff, ← round53_lt_one_iff hpos.le, hround]
  exact ⟨hpos.le, hlt⟩

/-- One less the target is meaningful iff it is not rounded up to 1. -/
theorem meaningful_one_sub_iff {q : ℚ} (hlt : q < 1) :
    Meaningful (binary64.sub (.fin 1) (.fin q)) ↔ less (.fin (1 / 2 ^ 54)) (.fin q) = true := by
  have hsub : binary64.sub (.fin 1) (.fin q) = binary64.round (1 + -q) := rfl
  have hless : less (.fin (1 / 2 ^ 54)) (.fin q) = true ↔ 1 / 2 ^ 54 < q := decide_eq_true_iff
  rw [hsub, meaningful_round_iff (by linarith), hless]
  constructor
  · intro h
    linarith
  · intro h
    linarith

/-! ### One operation -/

theorem update_spec (hprob : Answers rng) {quantile : LensQuantile} (h : ProperTarget quantile)
    (epoch : Fin 2) (value : Double)
    (s : σ) (log : List Draw) : ∃ ret lens' s' draws,
      lensQuantileUpdate binary64 rng.traced (.quantile quantile) epoch value (s, log) =
        .ok (ret, lens', s', log ++ draws) ∧
      Proper lens' ∧ ∀ draw ∈ draws, MeaningfulDraw draw := by
  obtain ⟨q, htarget, hpos, hlt, hround⟩ := h
  have hmean : Meaningful quantile.targetQuantile := htarget ▸ meaningful_target hpos hlt hround
  obtain ⟨⟨check, s'⟩, hdraw⟩ := hprob s quantile.targetQuantile hmean
  obtain ⟨lens', hrun, hproper⟩ : ∃ lens', lensQuantileUpdate binary64 rng.traced
      (.quantile quantile) epoch value (s, log) =
        .ok (true, lens', s', log ++ [.prob quantile.targetQuantile]) ∧ Proper lens' := by
    unfold lensQuantileUpdate
    dsimp only
    rw [traced_genProb hdraw, ok_bind]
    exact ⟨_, rfl, _, rfl, q, htarget, hpos, hlt, hround⟩
  refine ⟨true, lens', s', [.prob quantile.targetQuantile], hrun, hproper, fun draw hmem => ?_⟩
  exact ⟨_, List.mem_singleton.mp hmem, hmean⟩

theorem pickSample_spec (hprob : Answers rng) {quantile : LensQuantile} (h : ProperTarget quantile)
    {count : UInt64} {sample : Double}
    {value : OpticsQuantile} (hapart : Apart count value.sampleCount)
    (htarget : less value.sample sample = true ∨
      less (.fin (1 / 2 ^ 54)) quantile.targetQuantile = true) (s : σ) (log : List Draw) :
    ∃ pick s' draws,
      pickSample binary64 rng.traced quantile count sample value (s, log) =
        .ok (pick, s', log ++ draws) ∧ ∀ draw ∈ draws, MeaningfulDraw draw := by
  obtain ⟨q, hq, hpos, hlt, hround⟩ := h
  obtain ⟨p, hp⟩ : ∃ p, p = binary64.div (.fin (doubleOf (countDelta count value.sampleCount)))
    (.fin (doubleOf (count + value.sampleCount))) := ⟨_, rfl⟩
  have hfirst : Meaningful p := hp ▸ (meaningful_div_iff count value.sampleCount).mpr hapart
  obtain ⟨⟨large, s1⟩, hdraw⟩ := hprob s p hfirst
  -- the second draw, if there is one
  obtain ⟨p', hp'⟩ : ∃ p, p = (if less value.sample sample then quantile.targetQuantile
    else binary64.sub (.fin 1) quantile.targetQuantile) := ⟨_, rfl⟩
  have hsecond : Meaningful p' := by
    rw [hp']
    split_ifs with hless
    · rw [hq]
      exact meaningful_target hpos hlt hround
    · have hbig := htarget.resolve_left hless
      rw [hq] at hbig ⊢
      exact (meaningful_one_sub_iff hlt).mpr hbig
  obtain ⟨⟨pick, s2⟩, hdraw'⟩ := hprob s1 p' hsecond
  have hrun : pickSample binary64 rng.traced quantile count sample value (s, log) =
      if large then .ok (decide (value.sampleCount ≤ count), s1, log ++ [.prob p])
      else .ok (pick, s2, log ++ [.prob p] ++ [.prob p']) := by
    unfold pickSample
    unfold countDelta at hp
    dsimp only
    rw [← hp, traced_genProb hdraw, ok_bind]
    dsimp only
    rw [← traced_genProb hdraw', hp']
    split_ifs
    · rfl
    · rfl
    · rfl
  rw [hrun]
  cases large with
  | true =>
    refine ⟨_, s1, [.prob p], rfl, fun draw hmem => ?_⟩
    exact ⟨p, List.mem_singleton.mp hmem, hfirst⟩
  | false =>
    refine ⟨pick, s2, [.prob p, .prob p'], by rw [List.append_assoc]; rfl, fun draw hmem => ?_⟩
    rcases List.mem_cons.mp hmem with heq | hmem
    · exact ⟨p, heq, hfirst⟩
    · exact ⟨p', List.mem_singleton.mp hmem, hsecond⟩

theorem read_spec (hprob : Answers rng) {quantile : LensQuantile} (h : ProperTarget quantile)
    {epoch : Fin 2} {value : OpticsQuantile}
    (hmeets : ReadMeets quantile epoch value) (s : σ) (log : List Draw) :
    ∃ ret value' lens' s' draws,
      lensQuantileRead binary64 rng.traced (.quantile quantile) epoch value (s, log) =
        .ok (ret, value', lens', s', log ++ draws) ∧
      Proper lens' ∧ ∀ draw ∈ draws, MeaningfulDraw draw := by
  have hkeep : Proper (.quantile { quantile with
      count := Function.update quantile.count epoch 0 }) := ⟨_, rfl, h⟩
  unfold lensQuantileRead
  dsimp only
  split_ifs with hfirst hother
  · exact ⟨_, _, _, s, [], by rw [List.append_nil], hkeep, List.forall_mem_nil _⟩
  · exact ⟨_, _, _, s, [], by rw [List.append_nil], hkeep, List.forall_mem_nil _⟩
  · obtain ⟨hapart, htarget⟩ := (hmeets.resolve_left hfirst).resolve_left hother
    obtain ⟨pick, s', draws, hpick, hdraws⟩ := pickSample_spec hprob h hapart htarget s log
    rw [hpick, ok_bind]
    exact ⟨_, _, _, s', draws, rfl, hkeep, hdraws⟩

end Draws

/-! ### Runs -/

section Runs
variable {ι κ σ : Type} [DecidableEq ι] [DecidableEq κ] {rng : Rng σ}

theorem proper_set {lenses : ι → LensData} (h : ∀ i, Proper (lenses i)) {lens : LensData}
    (hlens : Proper lens) (i i' : ι) : Proper (Function.update lenses i lens i') := by
  rw [Function.update_apply]
  split_ifs
  · exact hlens
  · exact h i'

theorem exec_spec (hrng : Answers rng) {st : Poll ι κ} (h : ∀ i, Proper (st.lenses i))
    {op : Op ι κ} (hmeets : Meets st op) (s : σ) (log : List Draw) :
    ∃ st' s' draws, exec rng.traced st op (s, log) = .ok (st', s', log ++ draws) ∧
      (∀ i, Proper (st'.lenses i)) ∧ ∀ draw ∈ draws, MeaningfulDraw draw := by
  cases op with
  | update i epoch value =>
    obtain ⟨quantile, hlens, htarget⟩ := h i
    obtain ⟨ret, lens', s', draws, hrun, hproper, hdraws⟩ :=
      update_spec hrng htarget epoch value s log
    have hexec : exec rng.traced st (.update i epoch value) (s, log) =
        .ok ({ st with lenses := Function.update st.lenses i lens' }, s', log ++ draws) := by
      unfold exec
      dsimp only
      rw [hlens, hrun, ok_bind]
    exact ⟨_, s', draws, hexec, proper_set h hproper i, hdraws⟩
  | zero j =>
    obtain ⟨st', hst'⟩ : ∃ st', st' = (⟨st.lenses,
      Function.update st.records j OpticsQuantile.zero⟩ : Poll ι κ) := ⟨_, rfl⟩
    have hexec : exec rng.traced st (.zero j) (s, log) = .ok (st', s, log ++ []) := by
      rw [List.append_nil, hst']
      rfl
    exact ⟨st', s, [], hexec, by rw [hst']; exact h, List.forall_mem_nil _⟩
  | read i epoch j =>
    obtain ⟨quantile, hlens, htarget⟩ := h i
    obtain ⟨ret, value', lens', s', draws, hrun, hproper, hdraws⟩ :=
      read_spec hrng htarget (hmeets quantile hlens) s log
    have hexec : exec rng.traced st (.read i epoch j) (s, log) =
        .ok (⟨Function.update st.lenses i lens', Function.update st.records j value'⟩, s',
          log ++ draws) := by
      unfold exec
      dsimp only
      rw [hlens, hrun, ok_bind]
    exact ⟨_, s', draws, hexec, proper_set h hproper i, hdraws⟩

theorem run_spec (hrng : Answers rng) {ops : List (Op ι κ)} {st : Poll ι κ}
    (h : ∀ i, Proper (st.lenses i)) {s : σ} {log : List Draw}
    (hmeets : AllMeet rng.traced ops st (s, log)) :
    ∃ st' s' draws, run rng.traced ops st (s, log) = .ok (st', s', log ++ draws) ∧
      ∀ draw ∈ draws, MeaningfulDraw draw := by
  induction ops generalizing st s log with
  | nil => exact ⟨st, s, [], by rw [List.append_nil]; rfl, List.forall_mem_nil _⟩
  | cons op ops ih =>
    obtain ⟨st1, s1, draws1, hexec, hproper, hdraws1⟩ := exec_spec hrng h hmeets.1 s log
    obtain ⟨st2, s2, draws2, hrun, hdraws2⟩ := ih hproper (hmeets.2 st1 _ hexec)
    refine ⟨st2, s2, draws1 ++ draws2, ?_, fun draw hmem => ?_⟩
    · unfold run
      rw [hexec, ok_bind]
      dsimp only
      rw [hrun, List.append_assoc]
    · exact (List.mem_append.mp hmem).elim (hdraws1 draw) (hdraws2 draw)

end Runs

/-! ### The condition is exact -/

/-- A generator whose events do not happen. -/
def no : Rng Unit where
  genRange _ _ _ _ := (0, ())
  genEmpty _ _ := .error .undefined
  genProb _ _ := .ok (false, ())

theorem answers_no : Answers no := fun _ _ _ => ⟨_, rfl⟩

/-- Where no event happens, both draws of a choice are made. -/
theorem pickSample_no (quantile : LensQuantile) (count : UInt64) (sample : Double)
    (value : OpticsQuantile) :
    pickSample binary64 no.traced quantile count sample value ((), []) = .ok (false, (),
      [.prob (binary64.div (.fin (doubleOf (countDelta count value.sampleCount)))
          (.fin (doubleOf (count + value.sampleCount)))),
        .prob (if less value.sample sample then quantile.targetQuantile
          else binary64.sub (.fin 1) quantile.targetQuantile)]) := by
  have hdraw (p : Double) (log : List Draw) :
      no.traced.genProb ((), log) p = .ok (false, (), log ++ [.prob p]) := rfl
  unfold pickSample countDelta
  dsimp only
  rw [hdraw, ok_bind]
  dsimp only
  rw [if_neg Bool.false_ne_true, hdraw, hdraw]
  split_ifs
  · rfl
  · rfl
  · rfl
  · rfl

/-- A read all of whose draws are meaningful meets the condition. -/
theorem readMeets_of_draws {quantile : LensQuantile} (h : ProperTarget quantile) {epoch : Fin 2}
    {value value' : OpticsQuantile} {ret : OpticsRet} {lens' : LensData} {draws : List Draw}
    (hread : lensQuantileRead binary64 no.traced (.quantile quantile) epoch value ((), []) =
      .ok (ret, value', lens', (), draws))
    (hdraws : ∀ draw ∈ draws, MeaningfulDraw draw) : ReadMeets quantile epoch value := by
  obtain ⟨q, hq, hpos, hlt, hround⟩ := h
  unfold lensQuantileRead at hread
  dsimp only at hread
  split_ifs at hread with hfirst hother
  · exact .inl hfirst
  · exact .inr (.inl hother)
  · rw [pickSample_no, ok_bind] at hread
    cases hread
    obtain ⟨p, hp, hmean⟩ := hdraws _ List.mem_cons_self
    obtain ⟨p', hp', hmean'⟩ := hdraws _ (List.mem_cons_of_mem _ List.mem_cons_self)
    cases hp
    cases hp'
    refine .inr (.inr ⟨(meaningful_div_iff _ _).mp hmean, ?_⟩)
    by_cases hless : less value.sample (calculateQuantile binary64 quantile) = true
    · exact .inl hless
    · rw [if_neg hless, hq] at hmean'
      rw [hq]
      exact .inr ((meaningful_one_sub_iff hlt).mp hmean')

section Exact
variable {ι κ : Type} [DecidableEq ι] [DecidableEq κ]

/-- **An operation meets the condition** iff all its draws are meaningful, with every generator. -/
theorem exec_iff {st : Poll ι κ} (h : ∀ i, Proper (st.lenses i)) (op : Op ι κ) :
    (∀ (σ : Type) (rng : Rng σ), Answers rng → ∀ s log, ∃ st' s' draws,
      exec rng.traced st op (s, log) = .ok (st', s', log ++ draws) ∧
        ∀ draw ∈ draws, MeaningfulDraw draw) ↔ Meets st op := by
  constructor
  · intro hall
    obtain ⟨st', s', draws, hexec, hdraws⟩ := hall Unit no answers_no () []
    cases op with
    | update i epoch value => exact trivial
    | zero j => exact trivial
    | read i epoch j =>
      intro quantile hlens
      obtain ⟨quantile', hlens', htarget⟩ := h i
      obtain rfl : quantile = quantile' := LensData.quantile.inj (hlens.symm.trans hlens')
      unfold exec at hexec
      dsimp only at hexec
      rw [hlens] at hexec
      obtain ⟨⟨ret, value', lens', s1, draws1⟩, hread, hret⟩ := bind_eq_ok.mp hexec
      cases hret
      exact readMeets_of_draws htarget hread hdraws
  · intro hmeets σ rng hrng s log
    obtain ⟨st', s', draws, hexec, -, hdraws⟩ := exec_spec hrng h hmeets s log
    exact ⟨st', s', draws, hexec, hdraws⟩

/-- **The draws are meaningful** in every run whose operations meet the condition, which is exact for
each operation. -/
theorem draws_iff {st : Poll ι κ} (h : ∀ i, Proper (st.lenses i)) :
    (∀ (σ : Type) (rng : Rng σ), Answers rng → ∀ ops s log, AllMeet rng.traced ops st (s, log) →
      ∃ st' s' draws, run rng.traced ops st (s, log) = .ok (st', s', log ++ draws) ∧
        ∀ draw ∈ draws, MeaningfulDraw draw) ∧
    ∀ op, (∀ (σ : Type) (rng : Rng σ), Answers rng → ∀ s log, ∃ st' s' draws,
      exec rng.traced st op (s, log) = .ok (st', s', log ++ draws) ∧
        ∀ draw ∈ draws, MeaningfulDraw draw) ↔ Meets st op :=
  ⟨fun _ _ hrng _ _ _ hmeets => run_spec hrng h hmeets, exec_iff h⟩

end Exact

/-! ### Idle regions -/

/-- Two lenses for the median, and a zeroed record. -/
def medians (n m : UInt64) : Poll Bool Unit :=
  ⟨fun i => .quantile ⟨.fin (1 / 2), .fin 0, .fin 1, 0, fun _ => if i then m else n⟩,
    fun _ => OpticsQuantile.zero⟩

theorem medians_proper (n m : UInt64) (i : Bool) : Proper ((medians n m).lenses i) := by
  have hround : round53 (1 / 2) = 1 / 2 := by
    have h := round53_zpow (k := -1) (by norm_num)
    norm_num at h ⊢
    exact h
  exact ⟨_, rfl, 1 / 2, rfl, by norm_num, by norm_num, hround⟩

/-- Both of them are read into the record. -/
def readBoth : List (Op Bool Unit) := [.read false 0 (), .read true 0 ()]

theorem read_first {σ : Type} {rng : Rng σ} {quantile : LensQuantile} {epoch : Fin 2}
    {value : OpticsQuantile} {s : σ} (h : same value.quantile (.fin 0) = true) :
    lensQuantileRead binary64 rng (.quantile quantile) epoch value s =
      .ok (.ok, ⟨quantile.targetQuantile, calculateQuantile binary64 quantile, quantile.count epoch,
        quantile.count epoch⟩, .quantile { quantile with
          count := Function.update quantile.count epoch 0 }, s) := if_pos h

theorem same_zero : same OpticsQuantile.zero.quantile (.fin 0) = true := by decide

/-- The first read copies the lens into the record. -/
theorem exec_first {σ : Type} (rng : Rng σ) (n m : UInt64) (s : σ) : ∃ st,
    exec rng (medians n m) (.read false 0 ()) s = .ok (st, s) ∧
      st.lenses true = (medians n m).lenses true ∧
      ∃ sample, st.records () = ⟨.fin (1 / 2), sample, n, n⟩ := by
  obtain ⟨lens', sample, hread⟩ : ∃ lens' sample, lensQuantileRead binary64 rng
      ((medians n m).lenses false) 0 OpticsQuantile.zero s =
        .ok (.ok, ⟨.fin (1 / 2), sample, n, n⟩, lens', s) := ⟨_, _, read_first same_zero⟩
  obtain ⟨st, hst⟩ : ∃ st, st = (⟨Function.update (medians n m).lenses false lens',
    Function.update (medians n m).records () ⟨.fin (1 / 2), sample, n, n⟩⟩ : Poll Bool Unit) :=
    ⟨_, rfl⟩
  refine ⟨st, ?_, by rw [hst]; rfl, sample, by rw [hst]; rfl⟩
  unfold exec
  dsimp only
  have hzero : (medians n m).records () = OpticsQuantile.zero := rfl
  rw [hzero, hread, ok_bind, hst]

theorem allMeet_readBoth (s : UInt64 × List Draw) :
    AllMeet (xorshift binary64).traced readBoth (medians 3 4) s := by
  refine ⟨fun _ _ => .inl same_zero, fun st' s' hexec => ⟨?_, fun _ _ _ => trivial⟩⟩
  obtain ⟨st, hfirst, hlens, sample, hrecord⟩ := exec_first (xorshift binary64).traced 3 4 s
  cases hfirst.symm.trans hexec
  intro quantile hquantile
  obtain rfl := LensData.quantile.inj (hlens.symm.trans hquantile)
  rw [hrecord]
  have hapart : Apart 4 3 := (apart_iff_of_small (by decide)).mpr (by decide)
  exact .inr (.inr ⟨hapart, .inr (decide_eq_true_iff.mpr (by norm_num))⟩)

theorem draws_iff_medians : ∃ st' s' draws,
    run (xorshift binary64).traced readBoth (medians 3 4) (1, []) = .ok (st', s', [] ++ draws) ∧
      ∀ draw ∈ draws, MeaningfulDraw draw :=
  (draws_iff (medians_proper 3 4)).1 UInt64 (xorshift binary64) (answers_xorshift)
    readBoth 1 [] (allMeet_readBoth _)

/-- `rng_gen_prob` with 1 or with 0 over 0: the conversion is not defined. -/
theorem draw_one (x : UInt64) :
    rngGenProb binary64 x (binary64.div (.fin (doubleOf 3)) (.fin (doubleOf 3))) =
      .error .undefined := by
  have h3 : doubleOf 3 = 3 := rfl
  have hone : round53 1 = 1 := by
    have h := round53_zpow (k := 0) (by norm_num)
    rwa [zpow_zero] at h
  have hword : round53 (2 ^ 64) = 2 ^ 64 := by exact_mod_cast round53_zpow (k := 64) (by norm_num)
  have hdiv : binary64.div (.fin 3) (.fin 3) = .fin 1 := by
    have h : binary64.div (.fin 3) (.fin 3) = binary64.round (3 / 3) := by
      unfold Fpu.div
      exact if_neg three_ne_zero
    rw [h, div_self three_ne_zero,
      binary64_round_of_lt zero_le_one (k := 1) (by norm_num) (by rw [hone]; norm_num), hone]
  have hmul : binary64.mul (.fin 1) (.fin (doubleOf rngMax)) = .fin (2 ^ 64) := by
    have h : binary64.mul (.fin 1) (.fin (doubleOf rngMax)) =
        binary64.round (1 * doubleOf rngMax) := rfl
    rw [h, doubleOf_rngMax, one_mul,
      binary64_round_of_lt (by positivity) (k := 65) (by norm_num) (by rw [hword]; norm_num), hword]
  have hconv : uint64Of (.fin (2 ^ 64)) = .error .undefined := by
    unfold uint64Of toRange
    norm_num [trunc]
  unfold rngGenProb
  dsimp only
  rw [h3, hdiv, hmul]
  change (uint64Of (.fin (2 ^ 64)) >>= _) = _
  rw [hconv, error_bind]

theorem draw_idle (x : UInt64) :
    rngGenProb binary64 x (binary64.div (.fin (doubleOf 0)) (.fin (doubleOf 0))) =
      .error .undefined := by
  have h0 : doubleOf 0 = 0 := rfl
  have hdiv : binary64.div (.fin 0) (.fin 0) = .nan := by
    unfold Fpu.div
    exact if_pos rfl
  unfold rngGenProb
  dsimp only
  rw [h0, hdiv]
  rfl

theorem read_undefined {σ : Type} {rng : Rng σ} {quantile : LensQuantile} {epoch : Fin 2}
    {value : OpticsQuantile} {s : σ} (hfirst : same value.quantile (.fin 0) = false)
    (hother : same value.quantile quantile.targetQuantile = true)
    (hdraw : rng.genProb s (binary64.div
      (.fin (doubleOf (countDelta (quantile.count epoch) value.sampleCount)))
      (.fin (doubleOf (quantile.count epoch + value.sampleCount)))) = .error .undefined) :
    lensQuantileRead binary64 rng (.quantile quantile) epoch value s = .error .undefined := by
  unfold countDelta at hdraw
  unfold lensQuantileRead pickSample
  dsimp only
  rw [if_neg (by rw [hfirst]; exact Bool.false_ne_true), hother, if_neg Bool.noConfusion, hdraw]
  rfl

/-- The second read of a poll draws with the two counts. -/
theorem run_readBoth {n m s : UInt64}
    (h : rngGenProb binary64 s (binary64.div (.fin (doubleOf (countDelta m n)))
      (.fin (doubleOf (m + n)))) = .error .undefined) :
    run (xorshift binary64) readBoth (medians n m) s = .error .undefined := by
  have hfirst : same (.fin (1 / 2)) (.fin 0) = false := decide_eq_false_iff_not.mpr (by norm_num)
  have hother : same (.fin (1 / 2)) (.fin (1 / 2)) = true := decide_eq_true_iff.mpr rfl
  obtain ⟨st, hexec, hlens, sample, hrecord⟩ := exec_first (xorshift binary64) n m s
  have hlast : exec (xorshift binary64) st (.read true 0 ()) s = .error .undefined := by
    have hread : lensQuantileRead binary64 (xorshift binary64) (st.lenses true) 0 (st.records ()) s =
        .error .undefined := by
      rw [hlens, hrecord]
      exact read_undefined hfirst hother h
    unfold exec
    dsimp only
    rw [hread, error_bind]
  unfold readBoth run
  rw [hexec, ok_bind]
  dsimp only
  unfold run
  rw [hlast, error_bind]

/-- A region that has recorded nothing, after one that has and after one that has not. -/
theorem draws_idle : run (xorshift binary64) readBoth (medians 3 0) 1 = .error .undefined ∧
    run (xorshift binary64) readBoth (medians 0 0) 1 = .error .undefined :=
  ⟨run_readBoth (draw_one 1), run_readBoth (draw_idle 1)⟩

end Optics.QuantileRuns
