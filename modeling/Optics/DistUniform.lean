import Optics.DistMerge
import Optics.Lib.Sampling

/-! # Uniform samples

The samples of a distribution should be uniform: after `n` records each of them is in the reservoir
with chance `200 / n`, and samples of `N` values that are merged with `m` values leave each of the
`N + m` with chance `200 / (N + m)`. The generator is given the number of records before the one it
draws for, which is one less than the sampling wants.

* `record_chances` and `merge_chances`: what the chances are instead;
* `uniform_iff`: records are sampled uniformly iff all of them fit, and a merge is uniform iff there
  is nothing to merge. -/

namespace Optics.DistUniform

open Optics.Base Optics.Lenses Optics.LensSlots Optics.Doubles Optics.Utils.Random Optics.LensDist
open Optics.DistMerge Optics.Lib.Sampling

/-! ### Outcomes -/

/-- The generator with the numbers that are drawn. -/
def replay : Rng (List ℕ) where
  genRange xs min _ _ := (min + .ofNat (xs.headD 0), xs.tail)
  genEmpty _ _ := .error .undefined
  genProb xs _ := .ok (false, xs)

/-- The numbers are words. -/
def Words (xs : List ℕ) : Prop := ∀ x ∈ xs, x < 2 ^ 64

theorem Words.tail {xs : List ℕ} (h : Words xs) : Words xs.tail :=
  fun x hx => h x (List.mem_of_mem_tail hx)

theorem Words.head {xs : List ℕ} (h : Words xs) {n : UInt64} (hn : 0 ≠ n) :
    (replay.genRange xs 0 n hn).1.toNat = xs.headD 0 := by
  have hlt : xs.headD 0 < 2 ^ 64 := by
    cases xs with
    | nil => exact Nat.two_pow_pos 64
    | cons x xs => exact h x List.mem_cons_self
  change (0 + UInt64.ofNat (xs.headD 0)).toNat = _
  rw [UInt64.zero_add, UInt64.toNat_ofNat']
  exact Nat.mod_eq_of_lt hlt

/-! ### Records -/

section Model
variable {σ : Type} (rng : Rng σ)

/-- Records into a slot, one after the other. -/
def recordAll : List Double → LensDistEpoch → σ → LensDistEpoch × σ
  | [], dist, s => (dist, s)
  | value :: values, dist, s =>
    let (dist, s) := recordBody rng dist value s
    recordAll values dist s

/-- The samples that stand for the records of a slot. -/
def reservoir (dist : LensDistEpoch) : List Double :=
  dist.samples.toList.take (lensDistReservoirLen dist.n)

/-- The upper ends of the ranges that are drawn from, for `m` records into a slot that has counted
`n`. -/
def recordRanges (n : UInt64) : ℕ → List UInt64
  | 0 => []
  | m + 1 =>
    if n.toNat < opticsDistSamples then recordRanges (n + 1) m else n :: recordRanges (n + 1) m

theorem recordAll_calls : ∀ (values : List Double) (dist : LensDistEpoch) (s : σ) (log : List Draw),
    (recordAll rng.traced values dist (s, log)).2.2 =
      log ++ (recordRanges dist.n values.length).map (.range 0)
  | [], _, _, log => (List.append_nil log).symm
  | value :: values, dist, s, log => by
    have hn : (recordBody rng.traced dist value (s, log)).1.n = dist.n + 1 := rfl
    rw [recordAll, List.length_cons, recordRanges]
    have ih := recordAll_calls values (recordBody rng.traced dist value (s, log)).1
      (recordBody rng.traced dist value (s, log)).2.1 (recordBody rng.traced dist value (s, log)).2.2
    refine ih.trans ?_
    rw [hn, recordBody_snd]
    unfold recordIndex
    split_ifs
    · rfl
    · rw [List.map_cons, List.append_cons]
      rfl

end Model

/-! ### Which records are kept -/

/-- A slot with the numbers of the records in its cells. -/
structure Kept where
  n : UInt64
  cells : List ℕ

/-- Record `t` is put into cell `i`. -/
def Kept.put (s : Kept) (i t : ℕ) : Kept where
  n := s.n + 1
  cells :=
    if i < s.cells.length then s.cells.set i t
    else if i < opticsDistSamples then s.cells ++ [t] else s.cells

def Kept.record (s : Kept) (t : ℕ) (xs : List ℕ) : Kept × List ℕ :=
  if s.n.toNat < opticsDistSamples then (s.put s.n.toNat t, xs) else (s.put (xs.headD 0) t, xs.tail)

def Kept.recordAll : List ℕ → Kept → List ℕ → Kept
  | [], s, _ => s
  | t :: ts, s, xs => recordAll ts (s.record t xs).1 (s.record t xs).2

/-- The records in the reservoir. -/
def Kept.present (s : Kept) : List ℕ := s.cells.take (lensDistReservoirLen s.n)

/-- The cells are filled from the front, until all of them are. -/
def Kept.Filled (s : Kept) : Prop :=
  s.cells.length = opticsDistSamples ∨
    s.n.toNat < opticsDistSamples ∧ s.cells.length = s.n.toNat

/-- The slot holds the values of the records. -/
def Shows (f : ℕ → Double) (dist : LensDistEpoch) (s : Kept) : Prop :=
  dist.n = s.n ∧ ∀ c t : ℕ, s.cells[c]? = some t → dist.samples.toList[c]? = some (f t)

section Kept
variable {s : Kept} {t : ℕ} {xs : List ℕ}

theorem Kept.Filled.length_le (h : s.Filled) : s.cells.length ≤ opticsDistSamples := by
  rcases h with h | ⟨hlt, h⟩
  · exact h.le
  · omega

theorem Kept.record_eq (s : Kept) (t : ℕ) (xs : List ℕ) : ∃ i,
    (s.record t xs).1 = s.put i t ∧ (s.n.toNat < opticsDistSamples → i = s.n.toNat) := by
  unfold Kept.record
  split_ifs with hn
  · exact ⟨_, rfl, fun _ => rfl⟩
  · exact ⟨_, rfl, fun h => absurd h hn⟩

theorem Kept.Filled.record (h : s.Filled) (t : ℕ) (xs : List ℕ) : (s.record t xs).1.Filled := by
  obtain ⟨i, hrecord, hi⟩ := s.record_eq t xs
  rw [hrecord]
  unfold Kept.Filled Kept.put
  dsimp only
  rcases h with h | ⟨hlt, h⟩
  · left
    rw [h]
    split_ifs
    · rw [List.length_set, h]
    · exact h
  · rw [hi hlt, if_neg (by omega), if_pos hlt, List.length_append, List.length_singleton, h,
      toNat_succ_of_room hlt]
    omega

theorem Shows.put {f : ℕ → Double} {dist dist' : LensDistEpoch} (h : Shows f dist s) (hs : s.Filled)
    {i : ℕ} (hi : s.n.toNat < opticsDistSamples → i = s.n.toNat) (hn : dist'.n = dist.n + 1)
    (hput : dist'.samples.toList = dist.samples.toList.set i (f t)) : Shows f dist' (s.put i t) := by
  refine ⟨by rw [hn, h.1]; rfl, fun c t' hc => ?_⟩
  have hlen : dist.samples.toList.length = opticsDistSamples := Vector.length_toList
  have hle := hs.length_le
  rw [hput]
  unfold Kept.put at hc
  dsimp only at hc
  split_ifs at hc with hold hnew
  · -- a cell is overwritten
    by_cases hic : i = c
    · subst hic
      rw [List.getElem?_set_self hold] at hc
      cases hc
      exact List.getElem?_set_self (by omega)
    · rw [List.getElem?_set_ne hic] at hc ⊢
      exact h.2 c t' hc
  · -- the next cell is filled
    have hlast : i = s.cells.length := by
      rcases hs with hfull | ⟨hlt, hfill⟩
      · omega
      · rw [hfill, hi hlt]
    by_cases hic : i = c
    · subst hic
      rw [hlast, List.getElem?_concat_length] at hc
      cases hc
      exact List.getElem?_set_self (by omega)
    · have hcl := (List.getElem?_eq_some_iff.mp hc).1
      rw [List.length_append, List.length_singleton] at hcl
      rw [List.getElem?_append_left (by omega)] at hc
      rw [List.getElem?_set_ne hic]
      exact h.2 c t' hc
  · have hcl := (List.getElem?_eq_some_iff.mp hc).1
    rw [List.getElem?_set_ne (by omega)]
    exact h.2 c t' hc

/-- **A record** is kept where the slot puts its value. -/
theorem Shows.record {f : ℕ → Double} {dist : LensDistEpoch} (h : Shows f dist s) (hs : s.Filled)
    (hxs : Words xs) : Shows f (recordBody replay dist (f t) xs).1 (s.record t xs).1 ∧
      (recordBody replay dist (f t) xs).2 = (s.record t xs).2 := by
  have hput := recordBody_put replay dist (f t) xs
  rw [recordBody_snd]
  unfold Kept.record
  unfold recordIndex at hput ⊢
  rw [h.1] at hput ⊢
  split_ifs at hput ⊢ with hroom
  · exact ⟨h.put hs (fun _ => rfl) rfl hput, rfl⟩
  · rw [hxs.head] at hput
    exact ⟨h.put hs (fun hlt => absurd hlt hroom) rfl hput, rfl⟩

theorem Shows.recordAll {f : ℕ → Double} : ∀ (ts : List ℕ) {dist : LensDistEpoch} {s : Kept}
    {xs : List ℕ}, Shows f dist s → s.Filled → Words xs →
      Shows f (recordAll replay (ts.map f) dist xs).1 (s.recordAll ts xs)
  | [], _, _, _, h, _, _ => h
  | t :: ts, dist, s, xs, h, hs, hxs => by
    obtain ⟨hstep, hrest⟩ := h.record (t := t) hs hxs
    have hwords : Words (s.record t xs).2 := by
      unfold Kept.record
      split_ifs
      · exact hxs
      · exact hxs.tail
    have ih := Shows.recordAll ts hstep (hs.record t xs) hwords
    rw [List.map_cons, DistUniform.recordAll]
    dsimp only
    rw [hrest]
    exact ih

theorem Kept.Filled.recordAll : ∀ (ts : List ℕ) {s : Kept} (xs : List ℕ), s.Filled →
    (s.recordAll ts xs).Filled
  | [], _, _, h => h
  | t :: ts, _, xs, h => Kept.Filled.recordAll ts _ (h.record t xs)

theorem Shows.reservoir_eq {f : ℕ → Double} {dist : LensDistEpoch} (h : Shows f dist s)
    (hs : s.Filled) : reservoir dist = s.present.map f := by
  obtain ⟨hn, hcells⟩ := h
  refine List.ext_getElem? fun c => ?_
  unfold reservoir Kept.present lensDistReservoirLen
  rw [hn, List.getElem?_map, List.getElem?_take, List.getElem?_take]
  split_ifs with hc
  · have hlen : c < s.cells.length := by
      rcases hs with h | ⟨-, h⟩
      · omega
      · omega
    rw [hcells c _ (List.getElem?_eq_getElem hlen), List.getElem?_eq_getElem hlen]
    rfl
  · rfl

/-! ### The last record -/

theorem Kept.put_isAt (hs : s.Filled) {i : ℕ} (hi : s.n.toNat < opticsDistSamples → i = s.n.toNat)
    (hlt : i < opticsDistSamples) (ht : t ∉ s.cells) : IsAt t (s.put i t).cells i := by
  unfold Kept.put
  dsimp only
  split_ifs with hold
  · exact isAt_set hold ht
  · have hlast : i = s.cells.length := by
      rcases hs with hfull | ⟨hroom, hfill⟩
      · omega
      · rw [hfill, hi hroom]
    rw [hlast]
    refine ⟨List.getElem?_concat_length, fun q hq => ?_⟩
    by_contra hne
    have hq' := (List.getElem?_eq_some_iff.mp hq).1
    rw [List.length_append, List.length_singleton] at hq'
    rw [List.getElem?_append_left (by omega)] at hq
    exact ht (List.mem_of_getElem? hq)

theorem Kept.notMem_put {i u : ℕ} (ht : t ∉ s.cells) (hu : t ≠ u) : t ∉ (s.put i u).cells := by
  unfold Kept.put
  dsimp only
  split_ifs
  · exact notMem_set hu ht i
  · rw [List.mem_append, List.mem_singleton, not_or]
    exact ⟨ht, hu⟩
  · exact ht

/-- A record is present if it has a cell, and the number of records does not start over. -/
theorem Kept.mem_present_put (hs : s.Filled) {i : ℕ}
    (hi : s.n.toNat < opticsDistSamples → i = s.n.toNat) (ht : t ∉ s.cells) :
    t ∈ (s.put i t).present ↔ i < opticsDistSamples ∧ s.n + 1 ≠ 0 := by
  have hN : opticsDistSamples = 200 := rfl
  have hn : (s.put i t).n = s.n + 1 := rfl
  unfold Kept.present lensDistReservoirLen
  rw [hn]
  by_cases hlt : i < opticsDistSamples
  · have hat := Kept.put_isAt hs hi hlt ht
    by_cases hzero : s.n + 1 = 0
    · simp [hzero]
    · have hsucc : (s.n + 1).toNat = s.n.toNat + 1 := by
        have hne : (s.n + 1).toNat ≠ 0 := fun h => hzero (UInt64.toNat_inj.mp h)
        have hword := s.n.toNat_lt
        rw [UInt64.toNat_add, UInt64.toNat_one] at hne ⊢
        omega
      have hmem : t ∈ (s.put i t).cells.take (min (s.n.toNat + 1) opticsDistSamples) := by
        refine List.mem_iff_getElem?.mpr ⟨i, ?_⟩
        rw [List.getElem?_take, if_pos (by omega)]
        exact hat.1
      rw [hsucc]
      exact ⟨fun _ => ⟨hlt, hzero⟩, fun _ => hmem⟩
  · have hcells : (s.put i t).cells = s.cells := by
      have hle := hs.length_le
      unfold Kept.put
      dsimp only
      rw [if_neg (by omega), if_neg hlt]
    rw [hcells]
    exact ⟨fun h => absurd (List.mem_of_mem_take h) ht, fun h => absurd h.1 hlt⟩

/-- The chance of the last record, where `n` have been counted before. -/
def lastChance (n : UInt64) : ℚ :=
  if n + 1 = 0 then 0 else if n.toNat < opticsDistSamples then 1 else opticsDistSamples / n.toNat

theorem chance_record (hs : s.Filled) (ht : t ∉ s.cells) :
    (chance ((recordRanges s.n 1).map UInt64.toNat) fun xs => t ∈ (s.recordAll [t] xs).present) =
      lastChance s.n := by
  unfold lastChance
  by_cases hroom : s.n.toNat < opticsDistSamples
  · have hpresent := Kept.mem_present_put hs (fun _ => rfl) ht
    have hrecord (xs : List ℕ) : s.recordAll [t] xs = s.put s.n.toNat t :=
      congrArg Prod.fst (if_pos hroom)
    have hranges : recordRanges s.n 1 = [] := if_pos hroom
    have hzero : s.n + 1 ≠ 0 := fun h => by
      have := congrArg UInt64.toNat h
      rw [toNat_succ_of_room hroom] at this
      exact Nat.succ_ne_zero _ this
    rw [if_neg hzero, if_pos hroom, hranges]
    simp only [hrecord]
    exact if_pos (hpresent.mpr ⟨hroom, hzero⟩)
  · have hrecord (xs : List ℕ) : s.recordAll [t] xs = s.put (xs.headD 0) t :=
      congrArg Prod.fst (if_neg hroom)
    have hranges : recordRanges s.n 1 = [s.n] := if_neg hroom
    have hpresent (x : ℕ) : t ∈ (s.put x t).present ↔ x < opticsDistSamples ∧ s.n + 1 ≠ 0 :=
      Kept.mem_present_put hs (fun h => absurd h hroom) ht
    rw [hranges]
    simp only [hrecord]
    split_ifs with hzero
    · exact chance_never fun xs h => ((hpresent _).mp h).2 hzero
    · have hpos : ∀ x, x < opticsDistSamples →
          (chance [] fun xs => t ∈ (s.put ((x :: xs).headD 0) t).present) = 1 := fun x hx =>
        if_pos ((hpresent x).mpr ⟨hx, hzero⟩)
      have hneg : ∀ x, ¬ x < opticsDistSamples →
          (chance [] fun xs => t ∈ (s.put ((x :: xs).headD 0) t).present) = 0 := fun x hx =>
        if_neg fun h => hx ((hpresent x).mp h).1
      rw [List.map_singleton, chance_cons_of_card (card_lt (not_lt.mp hroom)) hpos hneg, mul_one]

/-- **The last record** is drawn for with the number of those before it. -/
theorem chance_last : ∀ (ts : List ℕ) {s : Kept}, s.Filled → t ∉ s.cells → t ∉ ts →
    (chance ((recordRanges s.n (ts.length + 1)).map UInt64.toNat) fun xs =>
      t ∈ (s.recordAll (ts ++ [t]) xs).present) = lastChance (s.n + .ofNat ts.length)
  | [], s, hs, ht, _ => by
    have hadd : s.n + UInt64.ofNat ([] : List ℕ).length = s.n := UInt64.add_zero s.n
    rw [hadd]
    exact chance_record hs ht
  | u :: ts, s, hs, ht, hts => by
    rw [List.mem_cons, not_or] at hts
    have hadd : s.n + UInt64.ofNat (u :: ts).length = s.n + 1 + UInt64.ofNat ts.length :=
      (succ_add_ofNat s.n ts.length).symm
    have hfilled (xs : List ℕ) := hs.record u xs
    rw [hadd, List.length_cons, recordRanges]
    unfold Kept.record at hfilled
    split_ifs at hfilled ⊢ with hroom
    · have hrecord (xs : List ℕ) : s.recordAll (u :: ts ++ [t]) xs =
          (s.put s.n.toNat u).recordAll (ts ++ [t]) xs := by
        rw [List.cons_append, Kept.recordAll, Kept.record, if_pos hroom]
      simp only [hrecord]
      exact chance_last ts (hfilled []) (Kept.notMem_put ht hts.1) hts.2
    · have hrecord (x : ℕ) (xs : List ℕ) : s.recordAll (u :: ts ++ [t]) (x :: xs) =
          (s.put x u).recordAll (ts ++ [t]) xs := by
        rw [List.cons_append, Kept.recordAll, Kept.record, if_neg hroom]
        rfl
      have hN : opticsDistSamples = 200 := rfl
      rw [List.map_cons]
      refine chance_cons_const (by omega) fun x => ?_
      simp only [hrecord]
      exact chance_last ts (hfilled [x]) (Kept.notMem_put ht hts.1) hts.2

/-! ### All records -/

/-- As long as there is room, the records are kept in order. -/
theorem recordAll_room : ∀ (ts us : List ℕ) {s : Kept} (xs : List ℕ),
    s.cells.length = s.n.toNat → s.n.toNat + ts.length ≤ opticsDistSamples →
      s.recordAll (ts ++ us) xs = Kept.recordAll us ⟨s.n + .ofNat ts.length, s.cells ++ ts⟩ xs
  | [], us, s, xs, _, _ => by
    have hadd : s.n + UInt64.ofNat ([] : List ℕ).length = s.n := UInt64.add_zero s.n
    rw [List.nil_append, List.append_nil, hadd]
  | t :: ts, us, s, xs, hfill, hle => by
    rw [List.length_cons] at hle
    have hroom : s.n.toNat < opticsDistSamples := by omega
    have hput : s.put s.n.toNat t = ⟨s.n + 1, s.cells ++ [t]⟩ := by
      unfold Kept.put
      rw [if_neg (by omega), if_pos hroom]
    have hadd : s.n + 1 + UInt64.ofNat ts.length = s.n + UInt64.ofNat (t :: ts).length :=
      succ_add_ofNat s.n ts.length
    have hsucc := toNat_succ_of_room hroom
    have hrest := recordAll_room ts us (s := ⟨s.n + 1, s.cells ++ [t]⟩) xs
      (by rw [List.length_append, List.length_singleton, hsucc, hfill]) (by rw [hsucc]; omega)
    rw [List.cons_append, Kept.recordAll, Kept.record, if_pos hroom, hput, hrest, hadd,
      List.append_assoc, List.singleton_append]

theorem recordRanges_room : ∀ (m : ℕ) {n : UInt64}, n.toNat + m ≤ opticsDistSamples →
    recordRanges n m = []
  | 0, _, _ => rfl
  | m + 1, n, h => by
    have hroom : n.toNat < opticsDistSamples := by omega
    rw [recordRanges, if_pos hroom, recordRanges_room m (by rw [toNat_succ_of_room hroom]; omega)]

/-- In a full slot, the records are put where the draws say. -/
theorem recordAll_full : ∀ (ts : List ℕ) {s : Kept} (xs : List ℕ),
    s.cells.length = opticsDistSamples → opticsDistSamples ≤ s.n.toNat →
      s.n.toNat + ts.length < 2 ^ 64 → (s.recordAll ts xs).cells = putAll ts s.cells xs ∧
        (s.recordAll ts xs).n.toNat = s.n.toNat + ts.length
  | [], _, _, _, _, _ => ⟨rfl, rfl⟩
  | t :: ts, s, xs, hlen, hfull, hword => by
    rw [List.length_cons] at hword
    have hput : s.put (xs.headD 0) t = ⟨s.n + 1, s.cells.set (xs.headD 0) t⟩ := by
      unfold Kept.put
      rw [hlen]
      split_ifs with hold
      · rfl
      · rw [List.set_eq_of_length_le (by omega)]
    have hsucc : (s.n + 1).toNat = s.n.toNat + 1 := toNat_succ (by omega)
    obtain ⟨hcells, hn⟩ := recordAll_full ts (s := ⟨s.n + 1, s.cells.set (xs.headD 0) t⟩) xs.tail
      (by rw [List.length_set, hlen]) (by rw [hsucc]; omega) (by rw [hsucc]; omega)
    rw [Kept.recordAll, Kept.record, if_neg (not_lt.mpr hfull), hput]
    refine ⟨hcells, hn.trans ?_⟩
    rw [hsucc, List.length_cons]
    omega

theorem recordRanges_full : ∀ (m : ℕ) {n : UInt64}, opticsDistSamples ≤ n.toNat →
    n.toNat + m ≤ 2 ^ 64 → (recordRanges n m).map UInt64.toNat = List.range' n.toNat m
  | 0, _, _, _ => rfl
  | 1, n, h, _ => by
    rw [recordRanges, if_neg (not_lt.mpr h)]
    rfl
  | m + 2, n, h, hword => by
    have hsucc : (n + 1).toNat = n.toNat + 1 := toNat_succ (by omega)
    rw [recordRanges, if_neg (not_lt.mpr h), List.map_cons,
      recordRanges_full (m + 1) (by omega) (by omega), hsucc]
    rfl

theorem recordRanges_append : ∀ (m k : ℕ) (n : UInt64),
    recordRanges n (m + k) = recordRanges n m ++ recordRanges (n + .ofNat m) k
  | 0, k, n => by
    rw [Nat.zero_add, recordRanges, List.nil_append]
    congr 1
    exact (UInt64.add_zero n).symm
  | m + 1, k, n => by
    rw [Nat.add_right_comm, recordRanges, recordRanges, recordRanges_append m k, succ_add_ofNat]
    split_ifs
    · rfl
    · rfl

end Kept

/-! ### The law -/

/-- The slot after `n` records. -/
def keptOf (n : ℕ) (xs : List ℕ) : Kept := Kept.recordAll (List.range n) ⟨0, []⟩ xs

/-- The chance of record `t` to be in the reservoir after `n` records. -/
def recordChance (n t : ℕ) : ℚ :=
  chance ((recordRanges 0 n).map UInt64.toNat) fun xs => t ∈ (keptOf n xs).present

/-- Whatever is drawn, the reservoir has the values of the records that are kept, drawn for with the
ranges; and with independent draws each of the records is kept with the same chance. -/
structure RecordsUniform (values : List Double) : Prop where
  calls : ∀ {σ : Type} (rng : Rng σ) (dist : LensDistEpoch) (s : σ), dist.n = 0 →
    (recordAll rng.traced values dist (s, [])).2.2 =
      (recordRanges 0 values.length).map (.range 0)
  kept : ∀ (dist : LensDistEpoch) (xs : List ℕ), dist.n = 0 → Words xs →
    reservoir (recordAll replay values dist xs).1 =
      (keptOf values.length xs).present.map fun t => values.getD t (.fin 0)
  uniform : ∀ t < values.length, recordChance values.length t = min (1 : ℚ) (200 / values.length)

theorem kept_of_room {n : ℕ} (hn : n ≤ opticsDistSamples) (us xs : List ℕ) :
    Kept.recordAll (List.range n ++ us) ⟨0, []⟩ xs =
      Kept.recordAll us ⟨.ofNat n, List.range n⟩ xs := by
  have hroom := recordAll_room (List.range n) us (s := ⟨0, []⟩) xs rfl (by
    rw [List.length_range]
    exact (Nat.zero_add n).trans_le hn)
  rw [hroom, List.length_range, List.nil_append]
  congr 2
  exact UInt64.zero_add _

theorem recordChance_of_room {n t : ℕ} (hn : n ≤ opticsDistSamples) (ht : t < n) :
    recordChance n t = 1 := by
  have hkept : keptOf n [] = ⟨.ofNat n, List.range n⟩ := by
    have h := kept_of_room hn [] []
    rwa [List.append_nil] at h
  have hranges : recordRanges 0 n = [] := recordRanges_room n ((Nat.zero_add n).trans_le hn)
  have hpresent : t ∈ (keptOf n []).present := by
    have hword := toNat_ofNat_small hn
    unfold Kept.present lensDistReservoirLen
    rw [hkept]
    dsimp only
    rw [hword, min_eq_left hn, List.take_of_length_le List.length_range.le]
    exact List.mem_range.mpr ht
  unfold recordChance
  rw [hranges]
  exact if_pos hpresent

/-- Behind the first 200 records, the reservoir is what the draws have put there. -/
theorem present_keptOf {m : ℕ} (hword : opticsDistSamples + m < 2 ^ 64) (xs : List ℕ) :
    (keptOf (opticsDistSamples + m) xs).present =
      putAll (List.range' opticsDistSamples m) (List.range opticsDistSamples) xs := by
  have h200 : (UInt64.ofNat opticsDistSamples).toNat = opticsDistSamples := rfl
  have hrange : List.range (opticsDistSamples + m) =
      List.range opticsDistSamples ++ List.range' opticsDistSamples m := by
    rw [List.range_eq_range', List.range_eq_range', ← List.range'_append_1, Nat.zero_add]
  have hlen : (List.range' opticsDistSamples m).length = m := List.length_range'
  obtain ⟨hcells, hn⟩ := recordAll_full (List.range' opticsDistSamples m)
    (s := ⟨.ofNat opticsDistSamples, List.range opticsDistSamples⟩) xs List.length_range h200.ge
    (by rw [hlen, h200]; exact hword)
  unfold keptOf Kept.present lensDistReservoirLen
  rw [hrange, kept_of_room le_rfl, hcells, hn, h200, hlen, min_eq_right (Nat.le_add_right _ _)]
  exact List.take_of_length_le (by rw [length_putAll, List.length_range])

theorem recordRanges_zero {m : ℕ} (hword : opticsDistSamples + m ≤ 2 ^ 64) :
    (recordRanges 0 (opticsDistSamples + m)).map UInt64.toNat = List.range' opticsDistSamples m := by
  have h200 : (UInt64.ofNat opticsDistSamples).toNat = opticsDistSamples := rfl
  rw [recordRanges_append, recordRanges_room _ (Nat.zero_add _).le, List.nil_append,
    UInt64.zero_add, recordRanges_full m h200.ge (by rw [h200]; exact hword), h200]

/-- **The chances of the records**: one of the first 200 is kept a little too rarely, and each of the
others too often. -/
theorem record_chances {n t : ℕ} (hfull : opticsDistSamples < n) (hword : n < 2 ^ 64) (ht : t < n) :
    recordChance n t =
      (if t < opticsDistSamples then (opticsDistSamples : ℚ) - 1 else opticsDistSamples) /
        (n - 1) := by
  obtain ⟨m, rfl⟩ : ∃ m, n = opticsDistSamples + m := ⟨n - opticsDistSamples, by omega⟩
  have hcast : ((opticsDistSamples + m : ℕ) : ℚ) = opticsDistSamples + m := Nat.cast_add _ _
  unfold recordChance
  rw [recordRanges_zero hword.le, chance_congr fun xs => by rw [present_keptOf hword xs], hcast]
  split_ifs with hold
  · exact chance_kept_range hold List.nodup_range (List.mem_range.mpr hold) List.length_range.le
      (by decide)
  · have hchance := chance_added_range (Nat.le_of_not_lt hold) ht
      (fun hmem => hold (List.mem_range.mp hmem)) List.length_range.le (by decide)
    rwa [List.length_range] at hchance

theorem recordChance_last (n : ℕ) : recordChance (n + 1) n = lastChance (.ofNat n) := by
  have hfilled : Kept.Filled ⟨0, []⟩ := .inr ⟨by decide, rfl⟩
  have hchance := chance_last (t := n) (List.range n) hfilled List.not_mem_nil List.not_mem_range_self
  rw [List.length_range, UInt64.zero_add] at hchance
  rw [← hchance]
  unfold recordChance keptOf
  exact chance_congr fun xs => by rw [List.range_succ]

/-- The record that is drawn for with one number less than it should has another chance. -/
theorem lastChance_ne {n : ℕ} (hn : opticsDistSamples ≤ n) :
    lastChance (.ofNat n) ≠ (200 : ℚ) / (n + 1 : ℕ) := by
  have hN : opticsDistSamples = 200 := rfl
  have hn200 : (200 : ℚ) < (n + 1 : ℕ) := by exact_mod_cast (by omega : 200 < n + 1)
  unfold lastChance
  split_ifs with hwrap hroom
  · have hpos : (0 : ℚ) < 200 / (n + 1 : ℕ) := by positivity
    exact hpos.ne
  · have hlt : (200 : ℚ) / (n + 1 : ℕ) < 1 := (div_lt_one (by linarith)).mpr hn200
    exact hlt.ne'
  · have hword : (UInt64.ofNat n).toNat ≤ n := by
      rw [UInt64.toNat_ofNat']
      exact Nat.mod_le n _
    have hc : (0 : ℚ) < (UInt64.ofNat n).toNat := by
      exact_mod_cast (by omega : 0 < (UInt64.ofNat n).toNat)
    have hcn : ((UInt64.ofNat n).toNat : ℚ) < (n + 1 : ℕ) := by
      exact_mod_cast Nat.lt_succ_of_le hword
    have hlt : (200 : ℚ) / (n + 1 : ℕ) < 200 / (UInt64.ofNat n).toNat :=
      div_lt_div_of_pos_left (by norm_num) hc hcn
    have hcast : (opticsDistSamples : ℚ) = 200 := by rw [hN]; norm_num
    rw [hcast]
    exact hlt.ne'

/-- **The reservoir** has the values of the records that are kept, whatever is drawn. -/
theorem recordAll_reservoir (values : List Double) {dist : LensDistEpoch} {xs : List ℕ}
    (hn : dist.n = 0) (hxs : Words xs) : reservoir (recordAll replay values dist xs).1 =
      (keptOf values.length xs).present.map fun t => values.getD t (.fin 0) := by
  have hvalues : values = (List.range values.length).map fun t => values.getD t (.fin 0) := by
    refine List.ext_getElem (by rw [List.length_map, List.length_range]) fun i h1 h2 => ?_
    rw [List.getElem_map, List.getElem_range, List.getD_eq_getElem _ _ h1]
  have hfilled : Kept.Filled ⟨0, []⟩ := .inr ⟨by decide, rfl⟩
  have hstart : Shows (fun t => values.getD t (.fin 0)) dist ⟨0, []⟩ :=
    ⟨hn, fun c t hc => by rw [List.getElem?_nil] at hc; cases hc⟩
  have hshows := hstart.recordAll (List.range values.length) hfilled hxs
  rw [← hvalues] at hshows
  exact hshows.reservoir_eq (hfilled.recordAll _ xs)

/-- Records are sampled uniformly iff all of them fit. -/
theorem recordsUniform_iff (values : List Double) :
    RecordsUniform values ↔ values.length ≤ opticsDistSamples := by
  have hN : opticsDistSamples = 200 := rfl
  constructor
  · intro h
    by_contra hbig
    obtain ⟨n, hn⟩ : ∃ n, values.length = n + 1 := ⟨values.length - 1, by omega⟩
    have hn200 : (200 : ℚ) < (n + 1 : ℕ) := by exact_mod_cast (by omega : 200 < n + 1)
    have hlaw := h.uniform n (by omega)
    rw [hn, recordChance_last, min_eq_right ((div_le_one (by linarith)).mpr hn200.le)] at hlaw
    exact lastChance_ne (by omega) hlaw
  · intro hle
    refine ⟨fun rng dist s hn => ?_, fun dist xs hn hxs => recordAll_reservoir values hn hxs,
      fun t ht => ?_⟩
    · rw [recordAll_calls, hn, List.nil_append]
    · have hpos : (0 : ℚ) < values.length := by exact_mod_cast (by omega : 0 < values.length)
      have hle' : (values.length : ℚ) ≤ 200 := by exact_mod_cast hle
      rw [recordChance_of_room hle ht, min_eq_left ((one_le_div hpos).mpr hle')]

/-! ### Merges -/

/-- The upper ends of the ranges that are drawn from, for `m` values behind `n`. -/
def eachRanges (n : UInt64) : ℕ → List UInt64
  | 0 => []
  | m + 1 => n :: eachRanges (n + 1) m

section Merges
variable {σ : Type} {fpu : Fpu}

theorem sampleEach_calls (rng : Rng σ) : ∀ (l dst : List Double) {n : UInt64} (s : σ)
    (log : List Draw), (∀ r ∈ eachRanges n l.length, 0 ≠ r) →
      ∃ dst' s', sampleEach rng.traced l dst n (s, log) =
        .ok (dst', s', log ++ (eachRanges n l.length).map (.range 0))
  | [], dst, _, s, log, _ => ⟨dst, s, by rw [List.length_nil, eachRanges, List.map_nil,
      List.append_nil, sampleEach]⟩
  | v :: l, dst, n, s, log, hranges => by
    rw [List.length_cons, eachRanges, List.forall_mem_cons] at hranges
    obtain ⟨dst', s', hrun⟩ := sampleEach_calls rng l
      (dst.set (rng.genRange s 0 n hranges.1).1.toNat v) (rng.genRange s 0 n hranges.1).2
      (log ++ [.range 0 n]) hranges.2
    refine ⟨dst', s', ?_⟩
    rw [List.length_cons, eachRanges, List.map_cons, List.append_cons, ← hrun, sampleEach,
      draw_of_ne hranges.1]
    rfl

theorem sampleEach_replay {f : ℕ → Double} : ∀ (ts reservoir : List ℕ) {n : UInt64} {xs : List ℕ},
    Words xs → (∀ r ∈ eachRanges n ts.length, 0 ≠ r) →
      ∃ rest, sampleEach replay (ts.map f) (reservoir.map f) n xs =
        .ok ((putAll ts reservoir xs).map f, rest)
  | [], _, _, xs, _, _ => ⟨xs, rfl⟩
  | t :: ts, reservoir, n, xs, hxs, hranges => by
    rw [List.length_cons, eachRanges, List.forall_mem_cons] at hranges
    rw [List.map_cons, sampleEach, putAll, draw_of_ne hranges.1, ok_bind]
    dsimp only
    rw [hxs.head, ← List.map_set]
    exact sampleEach_replay ts _ hxs.tail hranges.2

theorem merge_eq (rng : Rng σ) {lhs rhs dst : List Double} {n : UInt64} {s s' : σ}
    (hn : opticsDistSamples ≤ n.toNat) (hlhs : lhs.length = opticsDistSamples)
    (hrhs : rhs.length ≤ opticsDistSamples) (heach : sampleEach rng rhs lhs n s = .ok (dst, s')) :
    mergeInto fpu rng lhs n rhs (.ofNat rhs.length) s = .ok (dst, opticsDistSamples, s') := by
  have hN : opticsDistSamples = 200 := rfl
  have hm := toNat_ofNat_small hrhs
  unfold mergeInto mergeFull lensDistReservoirLen
  rw [hm]
  split_ifs with h0
  · have hnil : rhs = [] := List.length_eq_zero_iff.mp (by rw [← hm, h0]; rfl)
    rw [hnil, sampleEach] at heach
    cases heach
    rw [min_eq_right hn]
  · omega
  · rw [List.take_length, heach, ok_bind]

/-- `lens_dist_merge` of a slot and some values: the slot is on the left, or on the right. -/
def mergeSlot (fpu : Fpu) (rng : Rng σ) (left : Bool) (slot : List Double) (n : UInt64)
    (values : List Double) (s : σ) : Outcome (List Double × ℕ × σ) :=
  if left then lensDistMerge fpu rng slot n values (.ofNat values.length) s
  else lensDistMerge fpu rng values (.ofNat values.length) slot n s

theorem mergeSlot_eq (rng : Rng σ) {left : Bool} {slot values : List Double} {n : UInt64}
    (hn : opticsDistSamples ≤ n.toNat) (hslot : slot.length = opticsDistSamples)
    (hvalues : values.length ≤ opticsDistSamples) (hleft : left = false → values.length < n.toNat)
    {dst : List Double} {s s' : σ} (heach : sampleEach rng values slot n s = .ok (dst, s')) :
    mergeSlot fpu rng left slot n values s = .ok (dst, opticsDistSamples, s') := by
  have hN : opticsDistSamples = 200 := rfl
  have hm := toNat_ofNat_small hvalues
  have htake : slot.take (lensDistReservoirLen n) = slot := by
    rw [lensDistReservoirLen, min_eq_right hn, ← hslot, List.take_length]
  unfold mergeSlot lensDistMerge
  rw [htake]
  cases left with
  | true =>
    have hle : UInt64.ofNat values.length ≤ n :=
      UInt64.le_iff_toNat_le.mpr (hm.le.trans (hvalues.trans hn))
    rw [if_pos rfl, if_pos hle]
    exact merge_eq rng hn hslot hvalues heach
  | false =>
    have hlt : ¬ n ≤ UInt64.ofNat values.length := fun hle => by
      rw [UInt64.le_iff_toNat_le, hm] at hle
      exact absurd (hleft rfl) (not_lt.mpr hle)
    rw [if_neg Bool.false_ne_true, if_neg hlt]
    exact merge_eq rng hn hslot hvalues heach

end Merges

/-- Samples of `n` values: what the reservoir may hold, with weights, such that each of the values is
there with chance `200 / n`. -/
structure Sample (n : ℕ) (Ω : Type) [Fintype Ω] where
  weight : Ω → ℚ
  content : Ω → List ℕ
  nonneg : ∀ ω, 0 ≤ weight ω
  total : ∑ ω, weight ω = 1
  length : ∀ ω, (content ω).length = opticsDistSamples
  nodup : ∀ ω, (content ω).Nodup
  lt : ∀ ω, ∀ t ∈ content ω, t < n
  uniform : ∀ t < n, (∑ ω, weight ω * if t ∈ content ω then 1 else 0) = (200 : ℚ) / n

section Law
variable {Ω : Type} [Fintype Ω] {n : UInt64}

/-- The chance of a value to be in the reservoir after the merge, where the `m` values behind the
first `n` are merged. -/
def Sample.mergeChance (S : Sample n.toNat Ω) (m t : ℕ) : ℚ :=
  ∑ ω, S.weight ω * chance ((eachRanges n m).map UInt64.toNat) fun xs =>
    t ∈ putAll (List.range' n.toNat m) (S.content ω) xs

/-- Whatever is drawn, the merged reservoir has the values that are kept, drawn for with the ranges;
and with independent draws each of the values is kept with the same chance. -/
structure MergeUniform (S : Sample n.toNat Ω) (m : ℕ) : Prop where
  calls : ∀ {σ : Type} (fpu : Fpu) (rng : Rng σ) (values : ℕ → Double) (ω : Ω) (left : Bool) (s : σ),
    (left = false → m < n.toNat) → ∃ r s', mergeSlot fpu rng.traced left
      ((S.content ω).map values) n ((List.range' n.toNat m).map values) (s, []) =
        .ok (r, opticsDistSamples, s', (eachRanges n m).map (.range 0))
  kept : ∀ (fpu : Fpu) (values : ℕ → Double) (ω : Ω) (left : Bool) (xs : List ℕ), Words xs →
    (left = false → m < n.toNat) → ∃ rest, mergeSlot fpu replay left
      ((S.content ω).map values) n ((List.range' n.toNat m).map values) xs =
        .ok ((putAll (List.range' n.toNat m) (S.content ω) xs).map values, opticsDistSamples, rest)
  uniform : ∀ t < n.toNat + m, S.mergeChance m t = (200 : ℚ) / (n.toNat + m)

theorem eachRanges_eq : ∀ {n : UInt64} {m : ℕ}, n.toNat + m ≤ 2 ^ 64 →
    (eachRanges n m).map UInt64.toNat = List.range' n.toNat m
  | _, 0, _ => rfl
  | _, 1, _ => rfl
  | n, m + 2, h => by
    have hsucc : (n + 1).toNat = n.toNat + 1 := toNat_succ (by omega)
    rw [eachRanges, List.map_cons, eachRanges_eq (m := m + 1) (by omega), hsucc]
    rfl

/-- A range that starts over is empty once. -/
theorem zero_mem_eachRanges : ∀ {n : UInt64} {m : ℕ}, 2 ^ 64 < n.toNat + m → n ≠ 0 →
    0 ∈ (eachRanges n m).map UInt64.toNat
  | n, 0, h, _ => absurd n.toNat_lt (by omega)
  | n, m + 1, h, _ => by
    rw [eachRanges, List.map_cons]
    refine List.mem_cons_of_mem _ ?_
    by_cases hzero : n + 1 = 0
    · cases m with
      | zero =>
        have := n.toNat_lt
        omega
      | succ m =>
        rw [hzero, eachRanges]
        exact List.mem_cons_self
    · have hsucc := toNat_succ_of_ne_zero hzero
      exact zero_mem_eachRanges (by omega) hzero

/-- **The chances of a merge**: a value of the reservoir is kept too rarely, and each of those merged
too often. -/
theorem merge_chances (S : Sample n.toNat Ω) (hn : opticsDistSamples ≤ n.toNat) {m : ℕ}
    (hword : n.toNat + m ≤ 2 ^ 64) {t : ℕ} (ht : t < n.toNat + m) :
    S.mergeChance m t = if t < n.toNat then
        (200 : ℚ) / n.toNat * ((n.toNat - 1) / (n.toNat + m - 1))
      else 200 / (n.toNat + m - 1) := by
  have hN : opticsDistSamples = 200 := rfl
  unfold Sample.mergeChance
  rw [eachRanges_eq hword]
  split_ifs with hold
  · rw [← S.uniform t hold, Finset.sum_mul]
    refine Finset.sum_congr rfl fun ω _ => ?_
    rw [mul_assoc]
    congr 1
    split_ifs with hmem
    · rw [chance_kept_range hold (S.nodup ω) hmem ((S.length ω).le.trans hn) (by omega), one_mul]
    · rw [zero_mul]
      refine chance_never fun xs => notMem_putAll xs hmem fun hnew => ?_
      rw [List.mem_range'_1] at hnew
      omega
  · have hconst : ∀ ω ∈ Finset.univ, S.weight ω * (chance (List.range' n.toNat m) fun xs =>
        t ∈ putAll (List.range' n.toNat m) (S.content ω) xs) =
          S.weight ω * (200 / (n.toNat + m - 1)) := fun ω _ => by
      rw [chance_added_range (Nat.le_of_not_lt hold) ht (fun hmem => hold (S.lt ω t hmem))
        ((S.length ω).le.trans hn) (by omega), S.length ω, hN]
      norm_num
    rw [Finset.sum_congr rfl hconst, ← Finset.sum_mul, S.total, one_mul]

/-- The ranges of a full reservoir are not empty, unless the counts start over. -/
theorem eachRanges_ne (hn : opticsDistSamples ≤ n.toNat) {m : ℕ} (hword : n.toNat + m ≤ 2 ^ 64) :
    ∀ r ∈ eachRanges n m, 0 ≠ r := by
  rintro r hr rfl
  have hmem := List.mem_map_of_mem (f := UInt64.toNat) hr
  rw [eachRanges_eq hword, List.mem_range'_1, UInt64.toNat_zero] at hmem
  exact absurd (hn.trans hmem.1) (by decide)

/-- **The merged reservoir** is drawn for with the ranges, whatever the generator returns. -/
theorem mergeSlot_calls (S : Sample n.toNat Ω) (hn : opticsDistSamples ≤ n.toNat) {m : ℕ}
    (hm : m ≤ opticsDistSamples) (hword : n.toNat + m ≤ 2 ^ 64) {σ : Type} (fpu : Fpu) (rng : Rng σ)
    (values : ℕ → Double) (ω : Ω) {left : Bool} (s : σ) (hleft : left = false → m < n.toNat) :
    ∃ r s', mergeSlot fpu rng.traced left ((S.content ω).map values) n
      ((List.range' n.toNat m).map values) (s, []) =
        .ok (r, opticsDistSamples, s', (eachRanges n m).map (.range 0)) := by
  have hslot : ((S.content ω).map values).length = opticsDistSamples := by
    rw [List.length_map, S.length ω]
  have hlen : ((List.range' n.toNat m).map values).length = m := by
    rw [List.length_map, List.length_range']
  obtain ⟨r, s', hrun⟩ := sampleEach_calls rng ((List.range' n.toNat m).map values)
    ((S.content ω).map values) s [] (by rw [hlen]; exact eachRanges_ne hn hword)
  rw [mergeSlot_eq rng.traced hn hslot (hlen.le.trans hm) (by rwa [hlen]) hrun, hlen]
  exact ⟨r, s', rfl⟩

/-- **The merged reservoir** has the values that the draws say. -/
theorem mergeSlot_kept (S : Sample n.toNat Ω) (hn : opticsDistSamples ≤ n.toNat) {m : ℕ}
    (hm : m ≤ opticsDistSamples) (hword : n.toNat + m ≤ 2 ^ 64) (fpu : Fpu) (values : ℕ → Double)
    (ω : Ω) {left : Bool} {xs : List ℕ} (hxs : Words xs) (hleft : left = false → m < n.toNat) :
    ∃ rest, mergeSlot fpu replay left ((S.content ω).map values) n
      ((List.range' n.toNat m).map values) xs =
        .ok ((putAll (List.range' n.toNat m) (S.content ω) xs).map values, opticsDistSamples,
          rest) := by
  have hslot : ((S.content ω).map values).length = opticsDistSamples := by
    rw [List.length_map, S.length ω]
  have hlen : ((List.range' n.toNat m).map values).length = m := by
    rw [List.length_map, List.length_range']
  obtain ⟨rest, hrun⟩ := sampleEach_replay (f := values) (List.range' n.toNat m) (S.content ω)
    hxs (by rw [List.length_range']; exact eachRanges_ne hn hword)
  exact ⟨rest, mergeSlot_eq replay hn hslot (hlen.le.trans hm) (by rwa [hlen]) hrun⟩

/-- A merge is uniform iff there is nothing to merge. -/
theorem mergeUniform_iff (S : Sample n.toNat Ω) {m : ℕ} (hn : opticsDistSamples ≤ n.toNat)
    (hm : m ≤ opticsDistSamples) : MergeUniform S m ↔ m = 0 := by
  have hN : opticsDistSamples = 200 := rfl
  have hn0 : (0 : ℚ) < n.toNat := by exact_mod_cast (by omega : 0 < n.toNat)
  constructor
  · intro h
    by_contra hm0
    have hm1 : (1 : ℚ) ≤ m := by exact_mod_cast (by omega : 1 ≤ m)
    have hlaw := h.uniform (n.toNat + m - 1) (by omega)
    by_cases hword : n.toNat + m ≤ 2 ^ 64
    · rw [merge_chances S hn hword (by omega), if_neg (by omega)] at hlaw
      have hlt : (200 : ℚ) / (n.toNat + m) < 200 / (n.toNat + m - 1) :=
        div_lt_div_of_pos_left (by norm_num) (by linarith) (by linarith)
      linarith
    · have hzero : S.mergeChance m (n.toNat + m - 1) = 0 := by
        have hmem := zero_mem_eachRanges (n := n) (m := m) (by omega) fun h0 => by
          rw [h0, UInt64.toNat_zero] at hn
          omega
        exact Finset.sum_eq_zero fun ω _ => by rw [chance, mean_of_mem _ hmem, mul_zero]
      have hpos : (0 : ℚ) < 200 / (n.toNat + m) := by positivity
      linarith
  · rintro rfl
    have hword : n.toNat + 0 ≤ 2 ^ 64 := n.toNat_lt.le
    refine ⟨fun fpu rng values ω left s hleft =>
        mergeSlot_calls S hn hm hword fpu rng values ω s hleft,
      fun fpu values ω left xs hxs hleft =>
        mergeSlot_kept S hn hm hword fpu values ω hxs hleft,
      fun t ht => ?_⟩
    have ht' : t < n.toNat := ht
    have hchance : S.mergeChance 0 t =
        ∑ ω, S.weight ω * if t ∈ S.content ω then 1 else 0 := rfl
    rw [hchance, S.uniform t ht', Nat.cast_zero, add_zero]

end Law

/-! ### Uniform samples -/

/-- **The samples are uniform** iff none of the records is dropped and nothing is merged. -/
theorem uniform_iff (values : List Double) {Ω : Type} [Fintype Ω] {n : UInt64}
    (S : Sample n.toNat Ω) (m : ℕ) :
    (RecordsUniform values ↔ values.length ≤ opticsDistSamples) ∧
      (opticsDistSamples ≤ n.toNat → m ≤ opticsDistSamples → (MergeUniform S m ↔ m = 0)) :=
  ⟨recordsUniform_iff values, mergeUniform_iff S⟩

/-- The samples of the first 200 values are these values. -/
def firstSamples : Sample (200 : UInt64).toNat Unit where
  weight _ := 1
  content _ := List.range opticsDistSamples
  nonneg _ := zero_le_one
  total := Fintype.sum_unique _
  length _ := List.length_range
  nodup _ := List.nodup_range
  lt _ _ := List.mem_range.mp
  uniform t ht := by
    have hmem : t ∈ List.range opticsDistSamples := List.mem_range.mpr ht
    have h200 : (200 : UInt64).toNat = 200 := rfl
    rw [Fintype.sum_unique, if_pos hmem, mul_one, h200]
    norm_num

theorem uniform_iff_firstSamples :
    (RecordsUniform [.fin 3, .fin 5] ↔ 2 ≤ opticsDistSamples) ∧
      (MergeUniform firstSamples 1 ↔ 1 = 0) :=
  have h := uniform_iff [.fin 3, .fin 5] firstSamples 1
  ⟨h.1, h.2 (by decide) (by decide)⟩

/-- The record that finds the reservoir full is always kept, and so is a single value that is merged
with a full reservoir. -/
theorem not_uniform :
    (¬ ∀ values : List Double, RecordsUniform values) ∧ ¬ MergeUniform firstSamples 1 ∧
      recordChance 201 200 = 1 ∧ firstSamples.mergeChance 1 200 = 1 := by
  refine ⟨fun h => ?_, fun h => ?_, ?_, ?_⟩
  · have hle := (recordsUniform_iff (List.replicate 201 (.fin 0))).mp (h _)
    rw [List.length_replicate] at hle
    exact absurd hle (by decide)
  · exact one_ne_zero ((mergeUniform_iff firstSamples (by decide) (by decide)).mp h)
  · rw [record_chances (by decide) (by norm_num) (by norm_num), if_neg (by decide)]
    norm_num [opticsDistSamples]
  · have h200 : (200 : UInt64).toNat = 200 := rfl
    rw [merge_chances firstSamples (by decide) (by norm_num [h200]) (by norm_num [h200]),
      if_neg (by decide), h200]
    norm_num

end Optics.DistUniform
