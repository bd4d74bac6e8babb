import Optics.Polling
import Mathlib.Data.List.Perm.Basic
import Mathlib.Order.Bounds.Basic

/-! # The totals of a poll

Counters and histograms are read by adding the parts of a slot to those of the record and clearing
them (`readValue_spec`). Lenses whose keys coincide are assumed to be `Compatible`: of one type, and
with the same bounds if they are histograms. A record then holds the totals of its lenses, and the
longest of their elapsed times (`merged_sums`, `merged_elapsed`).

A total is a sum over the lenses with a key, and an elapsed time a maximum: neither depends on the
order of the regions, nor on that of the lenses in a region. -/

namespace Optics.PollTotals

open Optics.Base Optics.Lenses Optics.LensSlots Optics.Doubles Optics.Utils.Random Optics.LensReads
open Optics.Polling

/-! ### Values as sums -/

/-- The bounds of a histogram. -/
def boundsOf : LensData → List UInt64
  | .histo _ buckets => buckets
  | _ => []

/-- A counter or a histogram. -/
def Tallied (t : LensType) : Prop := t = .counter ∨ t = .histo

/-- A part of the value of a record. -/
def valuePart : OpticsPollValue → Part → UInt64
  | .counter v, p => if p = .value then v else 0
  | .histo h, p => h.get p
  | _, _ => 0

/-- The bounds of the value of a record. -/
def valueBounds : OpticsPollValue → List UInt64
  | .histo h => h.buckets
  | _ => []

/-- What a read adds to a part. -/
def slotPart (d : LensData) (e : Fin 2) (p : Part) : UInt64 := if p ∈ d.parts then d.slot e p else 0

theorem value_ext {v w : OpticsPollValue} (ht : Tallied v.type) (hvw : v.type = w.type)
    (hb : valueBounds v = valueBounds w) (hp : ∀ p, valuePart v p = valuePart w p) : v = w := by
  cases v with
  | counter a =>
    cases w with
    | counter b => exact congrArg _ (hp .value)
    | _ => cases hvw
  | histo a =>
    cases w with
    | histo b =>
      obtain ⟨buckets, below, above, counts⟩ := a
      obtain ⟨buckets', below', above', counts'⟩ := b
      have hbelow : below = below' := hp .below
      have habove : above = above' := hp .above
      have hcounts : counts = counts' := funext fun i => hp (.counts i)
      have hbuckets : buckets = buckets' := hb
      rw [hbelow, habove, hcounts, hbuckets]
    | _ => cases hvw
  | _ => rcases ht with h | h <;> cases h

theorem value_of_counter {v : OpticsPollValue} (h : v.type = .counter) :
    v = .counter (valuePart v .value) := by
  cases v with
  | counter a => rfl
  | _ => cases h

theorem value_of_histo {v : OpticsPollValue} (h : v.type = .histo) : ∃ a, v = .histo a := by
  cases v with
  | histo a => exact ⟨a, rfl⟩
  | _ => cases h

section Read
variable {σ : Type} {fpu : Fpu} {rng : Rng σ}

theorem readValue_type {value value' : OpticsPollValue} {d d' : LensData} {e : Fin 2} {s s' : σ}
    {ret : OpticsRet} (h : readValue fpu rng value d e s = .ok (ret, value', d', s')) :
    value'.type = value.type := by
  cases value with
  | counter v => cases h; rfl
  | gauge v => cases h; rfl
  | histo v => cases h; rfl
  | dist v =>
    obtain ⟨r, -, h⟩ := Base.bind_eq_ok.mp h
    cases h
    rfl
  | quantile v =>
    obtain ⟨r, -, h⟩ := Base.bind_eq_ok.mp h
    cases h
    rfl

theorem readValue_lens {value value' : OpticsPollValue} {d d' : LensData} {e : Fin 2} {s s' : σ}
    {ret : OpticsRet} (h : readValue fpu rng value d e s = .ok (ret, value', d', s')) :
    d'.type = d.type := by
  cases value with
  | counter v => cases d <;> cases h <;> rfl
  | gauge v => cases d <;> cases h <;> rfl
  | histo v =>
    rw [readValue, Except.ok.injEq, Prod.mk.injEq, Prod.mk.injEq, Prod.mk.injEq] at h
    obtain ⟨-, -, rfl, -⟩ := h
    cases d with
    | histo epochs buckets =>
      unfold lensHistoRead
      dsimp only
      split_ifs
      · rw [drainHisto_lens, LensData.type_clear]
      · rfl
      · rw [drainHisto_lens, LensData.type_clear]
    | _ => rfl
  | dist v =>
    obtain ⟨⟨ret1, v1, d1, s1⟩, hread, h⟩ := Base.bind_eq_ok.mp h
    cases h
    cases d with
    | dist epochs =>
      unfold LensDist.lensDistRead at hread
      dsimp only at hread
      split_ifs at hread
      · cases hread
        rfl
      · obtain ⟨r, -, hread⟩ := Base.bind_eq_ok.mp hread
        cases hread
        rfl
    | _ => cases hread; rfl
  | quantile v =>
    obtain ⟨⟨ret1, v1, d1, s1⟩, hread, h⟩ := Base.bind_eq_ok.mp h
    cases h
    cases d with
    | quantile q =>
      unfold LensQuantile.lensQuantileRead at hread
      dsimp only at hread
      split_ifs at hread
      · cases hread
        rfl
      · cases hread
        rfl
      · obtain ⟨r, -, hread⟩ := Base.bind_eq_ok.mp hread
        cases hread
        rfl
    | _ => cases hread; rfl

/-- **A counter or a histogram is read** into a record of its type: the parts in use are added to
those of the record and cleared. -/
theorem readValue_spec {value : OpticsPollValue} {d : LensData} (ht : value.type = d.type)
    (hd : Tallied d.type) (hb : valueBounds value = [] ∨ valueBounds value = boundsOf d) (e : Fin 2)
    (s : σ) : ∃ value', readValue fpu rng value d e s = .ok (.ok, value', d.clear e d.parts, s) ∧
      valueBounds value' = boundsOf d ∧
      ∀ p, valuePart value' p = valuePart value p + slotPart d e p := by
  cases value with
  | counter v =>
    cases d with
    | counter slots =>
      refine ⟨_, rfl, rfl, fun p => ?_⟩
      show (if p = .value then v + slots e else 0) = (if p = .value then v else 0) +
        (if p ∈ [Part.value] then (if p = .value then slots e else 0) else 0)
      by_cases hp : p = .value
      · simp [hp]
      · simp [hp]
    | _ => cases ht
  | histo v =>
    cases d with
    | histo epochs buckets =>
      have hv : v.buckets = [] ∨ v.buckets = buckets := hb
      obtain ⟨v', hrun, hbuckets, hget⟩ := @lensHistoRead_spec epochs buckets v hv e
      refine ⟨.histo v', ?_, hbuckets, hget⟩
      simp only [readValue, hrun]
    | _ => cases ht
  | _ =>
    rw [← ht] at hd
    rcases hd with h | h <;> cases h

theorem reads_sums {v : Visit} {before after : OpticsPollValue} (h : Reads fpu rng v before after)
    (ht : before.type = v.before.data.type) (hd : Tallied v.before.data.type)
    (hb : valueBounds before = [] ∨ valueBounds before = boundsOf v.before.data) :
    after.type = v.before.data.type ∧ valueBounds after = boundsOf v.before.data ∧
      (∀ p, valuePart after p = valuePart before p + slotPart v.before.data v.ctx.epoch p) ∧
      v.after.data = v.before.data.clear v.ctx.epoch v.before.data.parts := by
  obtain ⟨ret, s, s', hread⟩ := h
  obtain ⟨value', hrun, hb', hp'⟩ :=
    readValue_spec ht hd hb v.ctx.epoch s
  have htype := (readValue_type hrun).trans ht
  rw [hrun, Except.ok.injEq, Prod.mk.injEq, Prod.mk.injEq, Prod.mk.injEq] at hread
  obtain ⟨-, rfl, hdata, -⟩ := hread
  exact ⟨htype, hb', hp', hdata.symm⟩

/-! ### Records -/

/-- What the lenses of some visits have in a part. -/
def total (g : List Visit) (p : Part) : UInt64 :=
  (g.map fun v => slotPart v.before.data v.ctx.epoch p).sum

/-- **The value of a record** whose lenses are all of one type, with the same bounds: the totals, with
the slots cleared. -/
theorem merged_sums {t : LensType} {bounds : List UInt64} (ht : Tallied t) {g : List Visit}
    {poll : OpticsPoll} (h : Merged fpu rng g poll)
    (hg : ∀ v ∈ g, v.before.data.type = t ∧ boundsOf v.before.data = bounds) :
    poll.value.type = t ∧ valueBounds poll.value = bounds ∧
      (∀ p, valuePart poll.value p = total g p) ∧
      ∀ v ∈ g, v.after.data = v.before.data.clear v.ctx.epoch v.before.data.parts := by
  induction h with
  | @first v value hread =>
    obtain ⟨htv, hbv⟩ := hg v List.mem_cons_self
    have hzero : ∀ p, valuePart (.zero v.before.data.type) p = 0 := by
      intro p
      rw [htv]
      rcases ht with rfl | rfl
      · exact ite_self _
      · cases p <;> rfl
    have hbounds : valueBounds (.zero v.before.data.type) = [] := by
      cases v.before.data.type <;> rfl
    obtain ⟨ht', hb', hp', hdata⟩ :=
      reads_sums hread (OpticsPollValue.type_zero v.before.data.type) (htv ▸ ht) (.inl hbounds)
    refine ⟨ht'.trans htv, hb'.trans hbv, fun p => ?_, fun w hw => ?_⟩
    · show valuePart value p = _
      rw [hp', total, List.map_singleton, List.sum_singleton]
      exact (congrArg (· + _) (hzero p)).trans (UInt64.zero_add _)
    · rw [List.mem_singleton.mp hw]
      exact hdata
  | @next g v poll value hm hread ih =>
    obtain ⟨hvt, hvb, hvp, hva⟩ := ih fun w hw => hg w (List.mem_append_left _ hw)
    obtain ⟨htv, hbv⟩ := hg v (List.mem_append_right _ List.mem_cons_self)
    obtain ⟨ht', hb', hp', hdata⟩ :=
      reads_sums hread (hvt.trans htv.symm) (htv ▸ ht) (.inr (hvb.trans hbv.symm))
    refine ⟨ht'.trans htv, hb'.trans hbv, fun p => ?_, fun w hw => ?_⟩
    · show valuePart value p = _
      rw [hp', hvp, total, total, List.map_append, List.sum_append, List.map_singleton,
        List.sum_singleton]
    · rcases List.mem_append.mp hw with hw | hw
      · exact hva w hw
      · rw [List.mem_singleton.mp hw]
        exact hdata

theorem merged_type {t : LensType} {g : List Visit} {poll : OpticsPoll}
    (h : Merged fpu rng g poll) (hg : ∀ v ∈ g, v.before.data.type = t) : poll.value.type = t := by
  induction h with
  | @first v value hread =>
    obtain ⟨ret, s, s', hread⟩ := hread
    refine (readValue_type hread).trans ((OpticsPollValue.type_zero _).trans ?_)
    exact hg v List.mem_cons_self
  | @next g v poll value hm hread ih =>
    obtain ⟨ret, s, s', hread⟩ := hread
    exact (readValue_type hread).trans (ih fun w hw => hg w (List.mem_append_left _ hw))

theorem touchPoll_elapsed (ctx : PollerPollCtx) (poll : OpticsPoll) :
    (touchPoll ctx poll).elapsed = max poll.elapsed ctx.elapsed := by
  unfold touchPoll
  split_ifs with h
  · exact (max_eq_right (le_of_lt h)).symm
  · exact (max_eq_left (not_lt.mp h)).symm

/-- **The elapsed time of a record** is the longest of those of its lenses. -/
theorem merged_elapsed {g : List Visit} {poll : OpticsPoll} (h : Merged fpu rng g poll) :
    IsGreatest { e | ∃ v ∈ g, v.ctx.elapsed = e } poll.elapsed := by
  induction h with
  | @first v value hread =>
    refine ⟨⟨v, List.mem_cons_self, rfl⟩, ?_⟩
    rintro e ⟨w, hw, rfl⟩
    rw [List.mem_singleton.mp hw]
    exact le_rfl
  | @next g v poll value hm hread ih =>
    show IsGreatest _ (touchPoll v.ctx poll).elapsed
    rw [touchPoll_elapsed]
    obtain ⟨⟨w, hw, hwe⟩, hub⟩ := ih
    constructor
    · rcases le_total poll.elapsed v.ctx.elapsed with hle | hle
      · exact ⟨v, List.mem_append_right _ List.mem_cons_self, (max_eq_right hle).symm⟩
      · exact ⟨w, List.mem_append_left _ hw, hwe.trans (max_eq_left hle).symm⟩
    · rintro e ⟨u, hu, rfl⟩
      rcases List.mem_append.mp hu with hu | hu
      · exact (hub ⟨u, hu, rfl⟩).trans (le_max_left _ _)
      · rw [List.mem_singleton.mp hu]
        exact le_max_right _ _

end Read

/-! ### The aggregate -/

/-- The key of a lens that is polled. -/
def workKey (w : PollerPollCtx × PolledLens) : CStr := keyOf w.1 w.2

/-- Lenses whose keys coincide are of one type, and histograms have the same bounds. -/
def Compatible (ws : List (PollerPollCtx × PolledLens)) : Prop :=
  ∀ w ∈ ws, ∀ w' ∈ ws, workKey w = workKey w' →
    w.2.data.type = w'.2.data.type ∧ boundsOf w.2.data = boundsOf w'.2.data

/-- The total of a part over the lenses with a key. -/
def keyTotal (ws : List (PollerPollCtx × PolledLens)) (k : CStr) (p : Part) : UInt64 :=
  ((ws.filter fun w => workKey w = k).map fun w => slotPart w.2.data w.1.epoch p).sum

/-- The times since the last polls of the regions with a lens of a key. -/
def elapsedTimes (host : CStr) (ts : ℕ) (items : List PollerListItem) (k : CStr) : Set ℕ :=
  { e | ∃ item ∈ items, (∃ lens ∈ item.lenses, keyOf (pollCtx host ts item) lens = k) ∧
    e = max 1 (ts - item.lastPoll) }

/-- The aggregate is exact: one record for each key, with the totals of its lenses and the longest of
the elapsed times; what has been read is cleared and the slots of the other epoch are as before. -/
structure Aggregated {σ : Type} (hash : CStr → UInt64) (host : CStr) (ts : ℕ)
    (items : List PollerListItem) (out : List (List (ℕ × PolledLens))) (values : Values σ) :
    Prop where
  records : ∃ keys : List CStr, keys.Nodup ∧
    (∀ k, k ∈ keys ↔ ∃ w ∈ works host ts items, workKey w = k) ∧
    (Utils.Htables.htableItems values.table).Perm keys.zipIdx ∧ values.polls.length = keys.length ∧
    ∀ (i : ℕ) (k : CStr), keys[i]? = some k → values.find hash k = values.polls[i]?
  record : ∀ w ∈ works host ts items, ∃ poll, values.find hash (workKey w) = some poll ∧
    poll.value.type = w.2.data.type ∧
    IsGreatest (elapsedTimes host ts items (workKey w)) poll.elapsed ∧ poll.elapsed ≠ 0
  counter : ∀ w ∈ works host ts items, w.2.data.type = .counter →
    ∃ poll, values.find hash (workKey w) = some poll ∧
      poll.value = .counter (keyTotal (works host ts items) (workKey w) .value)
  histo : ∀ w ∈ works host ts items, w.2.data.type = .histo →
    ∃ poll h, values.find hash (workKey w) = some poll ∧ poll.value = .histo h ∧
      h.buckets = boundsOf w.2.data ∧
      ∀ p, h.get p = keyTotal (works host ts items) (workKey w) p
  shape : List.Forall₂ (fun item polled => polled.length = item.lenses.length) items out
  read : List.Forall₂ (fun w o => values.polls[o.1]? = values.find hash (workKey w) ∧
      (∀ p ∈ w.2.data.parts, o.2.data.slot w.1.epoch p = 0) ∧
      ∀ e p, e ≠ w.1.epoch → o.2.data.slot e p = w.2.data.slot e p)
    (works host ts items) out.flatten

section Aggregate
variable {σ : Type} {hash : CStr → UInt64} {fpu : Fpu} {rng : Rng σ}

theorem pollElapsed_eq (ts lastPoll : ℕ) : pollElapsed ts lastPoll = max 1 (ts - lastPoll) := by
  unfold pollElapsed
  split_ifs <;> omega

theorem map_visits {ws : List (PollerPollCtx × PolledLens)} {out : List (ℕ × PolledLens)}
    (hlen : out.length = ws.length) : (visits ws out).map (fun v => (v.ctx, v.before)) = ws := by
  unfold visits
  rw [List.map_zipWith, ← List.map_uncurry_zip_eq_zipWith]
  exact List.map_fst_zip hlen.ge

theorem exists_visit {ws : List (PollerPollCtx × PolledLens)} {out : List (ℕ × PolledLens)}
    (hlen : out.length = ws.length) {w : PollerPollCtx × PolledLens} :
    w ∈ ws ↔ ∃ v ∈ visits ws out, (v.ctx, v.before) = w := by
  rw [← List.mem_map, map_visits hlen]

theorem total_visits {ws : List (PollerPollCtx × PolledLens)} {out : List (ℕ × PolledLens)}
    (hlen : out.length = ws.length) (k : CStr) (p : Part) :
    total ((visits ws out).filter fun v => v.key = k) p = keyTotal ws k p := by
  conv_rhs => rw [← map_visits hlen]
  rw [keyTotal, List.filter_map, List.map_map]
  rfl

theorem mem_works {host : CStr} {ts : ℕ} {items : List PollerListItem}
    {w : PollerPollCtx × PolledLens} : w ∈ works host ts items ↔
      ∃ item ∈ items, ∃ lens ∈ item.lenses, (pollCtx host ts item, lens) = w := by
  simp only [works, List.mem_flatMap, List.mem_map]

theorem mem_elapsedTimes {host : CStr} {ts : ℕ} {items : List PollerListItem} {k : CStr} {e : ℕ} :
    e ∈ elapsedTimes host ts items k ↔
      ∃ w ∈ works host ts items, workKey w = k ∧ w.1.elapsed = e := by
  constructor
  · rintro ⟨item, hitem, ⟨lens, hlens, hk⟩, rfl⟩
    exact ⟨_, mem_works.mpr ⟨item, hitem, lens, hlens, rfl⟩, hk, pollElapsed_eq ts item.lastPoll⟩
  · rintro ⟨w, hw, hk, rfl⟩
    obtain ⟨item, hitem, lens, hlens, rfl⟩ := mem_works.mp hw
    exact ⟨item, hitem, ⟨lens, hlens, hk⟩, pollElapsed_eq ts item.lastPoll⟩

theorem elapsed_visits {host : CStr} {ts : ℕ} {items : List PollerListItem}
    {out : List (ℕ × PolledLens)} (hlen : out.length = (works host ts items).length) (k : CStr) :
    { e | ∃ v ∈ (visits (works host ts items) out).filter (fun v => v.key = k), v.ctx.elapsed = e } =
      elapsedTimes host ts items k := by
  ext e
  rw [mem_elapsedTimes]
  constructor
  · rintro ⟨v, hv, rfl⟩
    obtain ⟨hv, hk⟩ := List.mem_filter.mp hv
    exact ⟨_, (exists_visit hlen).mpr ⟨v, hv, rfl⟩, of_decide_eq_true hk, rfl⟩
  · rintro ⟨w, hw, hk, rfl⟩
    obtain ⟨v, hv, rfl⟩ := (exists_visit hlen).mp hw
    exact ⟨v, List.mem_filter.mpr ⟨hv, decide_eq_true hk⟩, rfl⟩

theorem merged_find {ws : List (PollerPollCtx × PolledLens)} {out : List (ℕ × PolledLens)}
    {keys : List CStr} {values : Values σ} (hv : Visited hash fpu rng (visits ws out) keys values)
    {v : Visit} (hmem : v ∈ visits ws out) : ∃ poll, values.find hash v.key = some poll ∧
      values.polls[v.record]? = some poll ∧
      Merged fpu rng ((visits ws out).filter fun u => u.key = v.key) poll := by
  have hi := hv.record v hmem
  have hlt : v.record < values.polls.length := by
    rw [hv.indexed.length]
    exact (List.getElem?_eq_some_iff.mp hi).1
  refine ⟨values.polls[v.record], ?_, List.getElem?_eq_getElem hlt,
    hv.merged _ _ _ hi (List.getElem?_eq_getElem hlt)⟩
  rw [hv.indexed.find_eq hi, List.getElem?_eq_getElem hlt]

theorem same_group {ws : List (PollerPollCtx × PolledLens)} {out : List (ℕ × PolledLens)}
    (hlen : out.length = ws.length) (hc : Compatible ws) {v : Visit} (hmem : v ∈ visits ws out) :
    ∀ u ∈ (visits ws out).filter fun u => u.key = v.key,
      u.before.data.type = v.before.data.type ∧ boundsOf u.before.data = boundsOf v.before.data := by
  intro u hu
  obtain ⟨hu, hk⟩ := List.mem_filter.mp hu
  exact hc _ ((exists_visit hlen).mpr ⟨u, hu, rfl⟩) _ ((exists_visit hlen).mpr ⟨v, hmem, rfl⟩)
    (of_decide_eq_true hk)

theorem read_visit {ws : List (PollerPollCtx × PolledLens)} {out : List (ℕ × PolledLens)}
    {keys : List CStr} {values : Values σ} (hv : Visited hash fpu rng (visits ws out) keys values)
    (hlen : out.length = ws.length) (hc : Compatible ws) {v : Visit} (hmem : v ∈ visits ws out) :
    (∀ p ∈ v.before.data.parts, v.after.data.slot v.ctx.epoch p = 0) ∧
      ∀ e p, e ≠ v.ctx.epoch → v.after.data.slot e p = v.before.data.slot e p := by
  obtain ⟨poll, -, -, hm⟩ := merged_find hv hmem
  by_cases ht : Tallied v.before.data.type
  · obtain ⟨-, -, -, hafter⟩ := merged_sums ht hm (same_group hlen hc hmem)
    rw [hafter v (List.mem_filter.mpr ⟨hmem, decide_eq_true rfl⟩)]
    constructor
    · intro p hp
      rw [LensData.slot_clear fun _ h => h, if_pos ⟨rfl, hp⟩]
    · intro e p he
      rw [LensData.slot_clear fun _ h => h, if_neg fun h => he h.1]
  · have hslot : ∀ {d : LensData}, ¬ Tallied d.type → d.parts = [] ∧ ∀ e p, d.slot e p = 0 := by
      intro d hd
      cases d with
      | counter _ => exact absurd (.inl rfl) hd
      | histo _ _ => exact absurd (.inr rfl) hd
      | _ => exact ⟨rfl, fun _ _ => rfl⟩
    obtain ⟨value, value', hread⟩ := hm.reads (List.mem_filter.mpr ⟨hmem, decide_eq_true rfl⟩)
    obtain ⟨ret, s, s', hread⟩ := hread
    have ht' : ¬ Tallied v.after.data.type := by
      rw [readValue_lens hread]
      exact ht
    refine ⟨fun p hp => ?_, fun e p _ => ?_⟩
    · rw [(hslot ht').2]
    · rw [(hslot ht').2, (hslot ht).2]

/-- **The aggregate is exact.** -/
theorem aggregated {host : CStr} {ts : ℕ} {items : List PollerListItem} {gen : σ}
    {out : List (List (ℕ × PolledLens))} {values : Values σ} (hc : Compatible (works host ts items))
    (h : pollItems hash fpu rng host ts items (Values.zero gen) = .ok (out, values)) :
    Aggregated hash host ts items out values := by
  obtain ⟨hlen, keys, hv⟩ := pollItems_visited h
  have hsum : ∀ {v}, v ∈ visits (works host ts items) out.flatten → Tallied v.before.data.type →
      ∃ poll, values.find hash v.key = some poll ∧ poll.value.type = v.before.data.type ∧
        valueBounds poll.value = boundsOf v.before.data ∧
        ∀ p, valuePart poll.value p = keyTotal (works host ts items) v.key p := by
    intro v hmem ht
    obtain ⟨poll, hfind, -, hm⟩ := merged_find hv hmem
    obtain ⟨htype, hbounds, hparts, -⟩ := merged_sums ht hm (same_group hlen hc hmem)
    exact ⟨poll, hfind, htype, hbounds, fun p => (hparts p).trans (total_visits hlen _ p)⟩
  refine ⟨⟨keys, hv.indexed.nodup, fun k => ?_, hv.indexed.items, hv.indexed.length,
    fun i k hi => hv.indexed.find_eq hi⟩, ?_, ?_, ?_, pollItems_lengths h, ?_⟩
  · rw [hv.keys_iff]
    constructor
    · rintro ⟨v, hmem, rfl⟩
      exact ⟨_, (exists_visit hlen).mpr ⟨v, hmem, rfl⟩, rfl⟩
    · rintro ⟨w, hw, rfl⟩
      obtain ⟨v, hmem, rfl⟩ := (exists_visit hlen).mp hw
      exact ⟨v, hmem, rfl⟩
  · intro w hw
    obtain ⟨v, hmem, rfl⟩ := (exists_visit hlen).mp hw
    obtain ⟨poll, hfind, -, hm⟩ := merged_find hv hmem
    have hgreatest := merged_elapsed hm
    rw [elapsed_visits hlen] at hgreatest
    refine ⟨poll, hfind, merged_type hm fun u hu => (same_group hlen hc hmem u hu).1, hgreatest, ?_⟩
    obtain ⟨item, -, -, he⟩ := hgreatest.1
    omega
  · intro w hw ht
    obtain ⟨v, hmem, rfl⟩ := (exists_visit hlen).mp hw
    obtain ⟨poll, hfind, htype, -, hparts⟩ := hsum hmem (.inl ht)
    refine ⟨poll, hfind, (value_of_counter (htype.trans ht)).trans ?_⟩
    exact congrArg _ (hparts .value)
  · intro w hw ht
    obtain ⟨v, hmem, rfl⟩ := (exists_visit hlen).mp hw
    obtain ⟨poll, hfind, htype, hbounds, hparts⟩ := hsum hmem (.inr ht)
    obtain ⟨a, hval⟩ := value_of_histo (htype.trans ht)
    rw [hval] at hbounds hparts
    exact ⟨poll, a, hfind, hval, hbounds, hparts⟩
  · refine List.forall₂_iff_zip.mpr ⟨hlen.symm, fun {w o} hwo => ?_⟩
    have hmem : (⟨w.1, w.2, o.1, o.2⟩ : Visit) ∈ visits (works host ts items) out.flatten := by
      unfold visits
      rw [← List.map_uncurry_zip_eq_zipWith]
      exact List.mem_map_of_mem hwo
    obtain ⟨poll, hfind, hpoll, -⟩ := merged_find hv hmem
    exact ⟨hpoll.trans hfind.symm, read_visit hv hlen hc hmem⟩

/-! ### The order of the regions -/

/-- A region, with its lenses in another order. -/
def SameRegion (a b : PollerListItem) : Prop :=
  a.regionPrefix = b.regionPrefix ∧ a.lastPoll = b.lastPoll ∧ a.epoch = b.epoch ∧
    a.lenses.Perm b.lenses

/-- Regions in another order, each with its lenses in another order. -/
def Rearranged (items items' : List PollerListItem) : Prop :=
  ∃ mid, items.Perm mid ∧ List.Forall₂ SameRegion mid items'

theorem works_perm {host : CStr} {ts : ℕ} {items items' : List PollerListItem}
    (h : Rearranged items items') : (works host ts items).Perm (works host ts items') := by
  obtain ⟨mid, hperm, hmid⟩ := h
  refine (hperm.flatMap_right _).trans ?_
  clear hperm
  induction hmid with
  | nil => exact .nil
  | @cons a b as bs hab _ ih =>
    obtain ⟨hhead, hpoll, hepoch, hlenses⟩ := hab
    have hctx : pollCtx host ts a = pollCtx host ts b := by
      simp only [pollCtx, hhead, hpoll, hepoch]
    rw [List.flatMap_cons, works, List.flatMap_cons, hctx]
    exact (hlenses.map _).append ih

theorem keyTotal_perm {ws ws' : List (PollerPollCtx × PolledLens)} (h : ws.Perm ws') (k : CStr)
    (p : Part) : keyTotal ws' k p = keyTotal ws k p :=
  ((h.filter _).map _).sum_eq.symm

theorem elapsedTimes_perm {host : CStr} {ts : ℕ} {items items' : List PollerListItem}
    (h : Rearranged items items') (k : CStr) :
    elapsedTimes host ts items' k = elapsedTimes host ts items k := by
  ext e
  rw [mem_elapsedTimes, mem_elapsedTimes]
  simp only [(works_perm h).mem_iff]

/-- Two polls agree on the record of a key. -/
def Agree {σ : Type} (hash : CStr → UInt64) (values values' : Values σ) (k : CStr) : Prop :=
  ∃ poll poll', values.find hash k = some poll ∧ values'.find hash k = some poll' ∧
    poll'.elapsed = poll.elapsed ∧ poll'.value.type = poll.value.type ∧
    (Tallied poll.value.type → poll'.value = poll.value)

/-- **The order does not matter.** -/
theorem Aggregated.agree {host : CStr} {ts : ℕ} {items items' : List PollerListItem}
    {out out' : List (List (ℕ × PolledLens))} {values values' : Values σ}
    (h : Aggregated hash host ts items out values) (h' : Aggregated hash host ts items' out' values')
    (hre : Rearranged items items') {w : PollerPollCtx × PolledLens}
    (hw : w ∈ works host ts items) : Agree hash values values' (workKey w) := by
  have hw' : w ∈ works host ts items' := (works_perm hre).mem_iff.mp hw
  obtain ⟨poll, hfind, htype, hgreatest, -⟩ := h.record w hw
  obtain ⟨poll', hfind', htype', hgreatest', -⟩ := h'.record w hw'
  rw [elapsedTimes_perm hre] at hgreatest'
  refine ⟨poll, poll', hfind, hfind', hgreatest'.unique hgreatest, htype'.trans htype.symm, ?_⟩
  intro ht
  rw [htype] at ht
  rcases ht with ht | ht
  · obtain ⟨p, hp, hval⟩ := h.counter w hw ht
    obtain ⟨p', hp', hval'⟩ := h'.counter w hw' ht
    rw [hfind, Option.some.injEq] at hp
    rw [hfind', Option.some.injEq] at hp'
    rw [hp, hp', hval, hval', keyTotal_perm (works_perm hre)]
  · obtain ⟨p, a, hp, hval, hbounds, hget⟩ := h.histo w hw ht
    obtain ⟨p', a', hp', hval', hbounds', hget'⟩ := h'.histo w hw' ht
    rw [hfind, Option.some.injEq] at hp
    rw [hfind', Option.some.injEq] at hp'
    rw [hp, hp', hval, hval']
    refine value_ext (.inr rfl) rfl (hbounds'.trans hbounds.symm) fun q => ?_
    show a'.get q = a.get q
    rw [hget, hget', keyTotal_perm (works_perm hre)]

end Aggregate

end Optics.PollTotals
