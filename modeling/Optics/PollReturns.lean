import Optics.PollTotals
import Optics.DistMerge

/-! # A poll returns

The loops of a poll end, and nothing in them aborts, as long as the table finds a bucket for each key
and the conversions of the processor return: the keys' hashes are apart modulo some `2^n`
(`Utils.HtableGrowth`), and the records of distributions hold as many samples as they say
(`Sound`). -/

namespace Optics.PollReturns

open Optics.Base Optics.Lenses Optics.LensSlots Optics.Doubles Optics.Utils.Random Optics.LensReads
open Optics.LensDist Optics.DistMerge Optics.LensQuantile
open Optics.Utils.Htables Optics.Utils.HtableMap Optics.Utils.HtableGrowth
open Optics.Polling Optics.PollTotals

/-- Conversions to `int` and draws always return. -/
structure Total {σ : Type} (fpu : Fpu) (rng : Rng σ) : Prop where
  toInt : ∀ d, ∃ n, fpu.toInt d = .ok n
  genEmpty : ∀ s min, ∃ r, rng.genEmpty s min = .ok r
  genProb : ∀ s p, ∃ r, rng.genProb s p = .ok r

theorem Total.drawsReturn {σ : Type} {fpu : Fpu} {rng : Rng σ} (ht : Total fpu rng) (n m : UInt64) :
    DrawsReturn fpu rng n m where
  each _ _ i _ s := by
    by_cases h : 0 = n + UInt64.ofNat i
    · rw [Rng.draw, dif_pos h]
      exact ht.genEmpty s 0
    · exact ⟨_, draw_of_ne h⟩
  mix _ s := ht.genProb s _

/-- The record of a distribution holds the samples it has counted, up to the size of the reservoir. -/
def Sound : OpticsPollValue → Prop
  | .dist v => lensDistReservoirLen v.n ≤ v.samples.length
  | _ => True

section Reads
variable {σ : Type} {fpu : Fpu} {rng : Rng σ}

/-! ### Reading -/

theorem lensDistRead_returns (ht : Total fpu rng) (d : LensData) (e : Fin 2) {value : OpticsDist}
    (hv : lensDistReservoirLen value.n ≤ value.samples.length) (s : σ) :
    ∃ ret value' d' s', lensDistRead fpu rng d e value s = .ok (ret, value', d', s') ∧
      lensDistReservoirLen value'.n ≤ value'.samples.length := by
  cases d with
  | dist epochs =>
    rcases hlock : (epochs e).lock with _ | _
    · have hsamples : lensDistReservoirLen (copySlot (epochs e)).1 ≤
          (copySlot (epochs e)).2.length := by
        unfold copySlot lensDistReservoirLen
        simp
      obtain ⟨value', s', hrun, hsound⟩ := mergeSamples_returns ht.toInt
        (fun _ => ht.drawsReturn _ _) (fun _ => ht.drawsReturn _ _)
        (show lensDistReservoirLen (value.mergeMax (epochs e).max).n ≤
          (value.mergeMax (epochs e).max).samples.length from hv) hsamples s
      rw [lensDistRead_spec hlock, hrun, ok_bind]
      exact ⟨_, value', _, s', rfl, hsound⟩
    · refine ⟨.busy, value, .dist epochs, s, ?_, hv⟩
      rw [lensDistRead]
      exact if_pos hlock
  | _ => exact ⟨_, value, _, s, rfl, hv⟩

theorem lensQuantileRead_returns (ht : Total fpu rng) (d : LensData) (e : Fin 2)
    (value : OpticsQuantile) (s : σ) : ∃ r, lensQuantileRead fpu rng d e value s = .ok r := by
  cases d with
  | quantile q =>
    unfold lensQuantileRead
    dsimp only
    split_ifs
    · exact ⟨_, rfl⟩
    · exact ⟨_, rfl⟩
    · obtain ⟨⟨pick, s1⟩, hpick⟩ :=
        pickSample_returns fpu ht.genProb q (q.count e) (calculateQuantile fpu q) value s
      rw [hpick, ok_bind]
      exact ⟨_, rfl⟩
  | _ => exact ⟨_, rfl⟩

/-- **A lens is read** into a sound record, which stays one. -/
theorem readValue_returns (ht : Total fpu rng) {value : OpticsPollValue} (hv : Sound value)
    (d : LensData) (e : Fin 2) (s : σ) :
    ∃ ret value' d' s', readValue fpu rng value d e s = .ok (ret, value', d', s') ∧
      Sound value' := by
  cases value with
  | counter v => exact ⟨_, _, _, _, rfl, trivial⟩
  | gauge v => exact ⟨_, _, _, _, rfl, trivial⟩
  | histo v => exact ⟨_, _, _, _, rfl, trivial⟩
  | dist v =>
    obtain ⟨ret, v', d', s', hrun, hsound⟩ := lensDistRead_returns ht d e hv s
    exact ⟨ret, .dist v', d', s', by rw [readValue, hrun, ok_bind], hsound⟩
  | quantile v =>
    obtain ⟨⟨ret, v', d', s'⟩, hrun⟩ := lensQuantileRead_returns ht d e v s
    exact ⟨ret, .quantile v', d', s', by rw [readValue, hrun, ok_bind], trivial⟩

theorem sound_zero (t : LensType) : Sound (.zero t) := by
  cases t with
  | dist => exact Nat.le_refl 0
  | _ => trivial

end Reads

/-! ### The table -/

section Tables
variable {hash : CStr → UInt64} {n : ℕ} {S : Finset CStr}

/-- A table nothing has been looked up in, or one with room. -/
def Room (hash : CStr → UInt64) (n : ℕ) (S : Finset CStr) (ht : Htable) : Prop :=
  ht = Htable.zero ∨ ∃ a, Roomy hash n S ht a

theorem htableGet_room {ht : Htable} {M : KeyMap} (hi : Inv hash ht M) (hroom : Room hash n S ht)
    (key : CStr) : ∃ ht' a, htableGet hash ht key = .ok (ht', ofLookup (M.lookup (clip key))) ∧
      Inv hash ht' M ∧ Roomy hash n S ht' a := by
  obtain ⟨ht1, hget, hi1, hsame⟩ := htableGet_spec hi key
  rcases hroom with rfl | ⟨a, ha⟩
  · obtain ⟨ht2, hget2, -, hr2⟩ := @htableGet_zero hash n S key
    have hht : ht1 = ht2 := by
      rw [hget] at hget2
      exact (Prod.mk.inj (Except.ok.inj hget2)).1
    exact ⟨ht1, 3, hget, hi1, hht ▸ hr2⟩
  · cases hsame ha.probeWindow_le
    exact ⟨ht, a, hget, hi1, ha⟩

end Tables

/-! ### Polling -/

section Polls
variable {σ : Type} {hash : CStr → UInt64} {fpu : Fpu} {rng : Rng σ} {n : ℕ} {S : Finset CStr}

/-- Between two lenses: the table has room for the keys to come, and the records are sound. -/
structure Ready (hash : CStr → UInt64) (n : ℕ) (S : Finset CStr) (keys : List CStr)
    (values : Values σ) : Prop where
  indexed : Indexed hash keys values
  subset : ∀ k ∈ keys, k ∈ S
  room : Room hash n S values.table
  sound : ∀ poll ∈ values.polls, Sound poll.value

theorem ready_zero (gen : σ) : Ready hash n S [] (Values.zero gen) :=
  ⟨indexed_zero gen, fun _ hk => absurd hk List.not_mem_nil, .inl rfl,
    fun _ hp => absurd hp List.not_mem_nil⟩

/-- **A record is found or made.** -/
theorem Ready.getValue (hA : Apart hash n S) (hS : ∀ k ∈ S, clip k = k) (hn : n < 64)
    {keys : List CStr} {values : Values σ} (h : Ready hash n S keys values) {ctx : PollerPollCtx}
    {lens : PolledLens} (hkey : keyOf ctx lens ∈ S) :
    ∃ i values', pollerGetValue hash ctx lens (keyOf ctx lens) values = .ok (i, values') ∧
      Room hash n S values'.table := by
  have hclip := clip_keyOf ctx lens
  obtain ⟨M, hi, hM⟩ := h.indexed.table
  obtain ⟨table, a, hget, hi', hroom⟩ := htableGet_room hi h.room (keyOf ctx lens)
  rw [hclip] at hget
  unfold pollerGetValue
  rw [hget, ok_bind]
  rcases hlook : M.lookup (keyOf ctx lens) with _ | j
  · have hMS : M.keys ⊆ S := fun k hk => by
      obtain ⟨i, hik⟩ := Finmap.mem_iff.mp (Finmap.mem_keys.mp hk)
      exact h.subset k (List.mem_of_getElem? ((hM k i).mp hik))
    obtain ⟨table', ret, b, hput, hroom'⟩ := htablePutFrom_roomy hA hS hn hMS (hclip.symm ▸ hkey)
      values.polls.length doublings hi' hroom (by unfold doublings; omega)
    have hret : ret.ok = true := by
      obtain ⟨-, hr⟩ := htablePut_spec hi' hput
      rw [hr, mapPut, hclip, hlook]
    have hput' : htablePut hash table (keyOf ctx lens) values.polls.length = .ok (table', ret) := hput
    refine ⟨values.polls.length,
      { values with table := table', polls := values.polls ++ [firstPoll ctx lens] }, ?_,
      .inr ⟨b, hroom'⟩⟩
    simp [ofLookup, hput', hret]
  · exact ⟨_, _, rfl, .inr ⟨a, hroom⟩⟩

theorem getValue_sound {keys : List CStr} {values values' : Values σ} (h : Ready hash n S keys values)
    {ctx : PollerPollCtx} {lens : PolledLens} {i : ℕ}
    (hrun : pollerGetValue hash ctx lens (keyOf ctx lens) values = .ok (i, values')) :
    (∃ poll, values'.polls[i]? = some poll) ∧ ∀ poll ∈ values'.polls, Sound poll.value := by
  obtain ⟨-, ⟨hik, hix, hpolls⟩ | ⟨-, hik, hix, hpolls⟩⟩ := pollerGetValue_spec h.indexed hrun
  · have hlt : i < values'.polls.length := by
      rw [hix.length]
      exact (List.getElem?_eq_some_iff.mp hik).1
    refine ⟨⟨_, List.getElem?_eq_getElem hlt⟩, fun poll hp => ?_⟩
    obtain ⟨j, hj⟩ := List.mem_iff_getElem?.mp hp
    rw [hpolls, List.getElem?_modify] at hj
    obtain ⟨poll0, hj0, rfl⟩ := Option.map_eq_some_iff.mp hj
    have hsound := h.sound poll0 (List.mem_of_getElem? hj0)
    split_ifs
    · rw [touchPoll_value]
      exact hsound
    · exact hsound
  · have hlt : i < values'.polls.length := by
      rw [hix.length, hik]
      simp
    refine ⟨⟨_, List.getElem?_eq_getElem hlt⟩, fun poll hp => ?_⟩
    rw [hpolls] at hp
    rcases List.mem_append.mp hp with hp | hp
    · exact h.sound poll hp
    · rw [List.mem_singleton.mp hp]
      exact sound_zero _

/-- **A lens is polled.** -/
theorem Ready.poll (ht : Total fpu rng) (hA : Apart hash n S) (hS : ∀ k ∈ S, clip k = k)
    (hn : n < 64) {keys : List CStr} {values : Values σ} (h : Ready hash n S keys values)
    {ctx : PollerPollCtx} {lens : PolledLens} (hkey : keyOf ctx lens ∈ S) :
    ∃ polled values' keys', pollerPollLens hash fpu rng ctx lens values = .ok (polled, values') ∧
      Ready hash n S keys' values' := by
  obtain ⟨key, hpush, hstr⟩ := pollKey_spec ctx lens
  obtain ⟨i, values1, hget, hroom⟩ := h.getValue hA hS hn hkey
  obtain ⟨⟨poll, hpoll⟩, hsound⟩ := getValue_sound h hget
  obtain ⟨ret, value, d, s, hread, hv⟩ :=
    readValue_returns ht (hsound poll (List.mem_of_getElem? hpoll)) lens.data ctx.epoch values1.gen
  have hrun : pollerPollLens hash fpu rng ctx lens values = .ok ((i, { lens with data := d }),
      { values1 with polls := values1.polls.set i { poll with value := value }, gen := s }) := by
    unfold pollerPollLens
    rw [hpush, ok_bind, hstr, hget, ok_bind]
    dsimp only
    rw [hpoll]
    dsimp only
    rw [hread, ok_bind]
  have hsound' : ∀ p ∈ values1.polls.set i { poll with value := value }, Sound p.value := by
    intro p hp
    rcases List.mem_or_eq_of_mem_set hp with hp | rfl
    · exact hsound p hp
    · exact hv
  obtain ⟨-, ⟨-, hix1, -⟩ | ⟨-, -, hix1, -⟩⟩ := pollerGetValue_spec h.indexed hget
  · exact ⟨_, _, keys, hrun, hix1.setPoll _ _ _, h.subset, hroom, hsound'⟩
  · refine ⟨_, _, _, hrun, hix1.setPoll _ _ _, fun k hk => ?_, hroom, hsound'⟩
    rcases List.mem_append.mp hk with hk | hk
    · exact h.subset k hk
    · rw [List.mem_singleton.mp hk]
      exact hkey

/-- **A run of polls returns.** -/
theorem pollEach_returns (ht : Total fpu rng) (hA : Apart hash n S) (hS : ∀ k ∈ S, clip k = k)
    (hn : n < 64) {ws : List (PollerPollCtx × PolledLens)} (hkeys : ∀ w ∈ ws, workKey w ∈ S) :
    ∀ {keys : List CStr} {values : Values σ}, Ready hash n S keys values →
      ∃ r, pollEach hash fpu rng ws values = .ok r := by
  induction ws with
  | nil => exact fun _ => ⟨_, rfl⟩
  | cons w ws ih =>
    intro keys values h
    obtain ⟨polled, values1, keys1, hone, h1⟩ := h.poll ht hA hS hn (hkeys w List.mem_cons_self)
    obtain ⟨r, hrest⟩ := ih (fun u hu => hkeys u (List.mem_cons_of_mem _ hu)) h1
    exact ⟨(polled :: r.1, r.2), by simp only [Polling.pollEach, hone, hrest, ok_bind]⟩

/-- **A poll returns** if the hashes of the keys are apart. -/
theorem pollItems_returns (ht : Total fpu rng) (hn : n < 64) {host : CStr} {ts : ℕ}
    {items : List PollerListItem}
    (hA : Apart hash n ((works host ts items).map workKey).toFinset) (gen : σ) :
    ∃ out values, pollItems hash fpu rng host ts items (Values.zero gen) = .ok (out, values) := by
  have hS : ∀ k ∈ ((works host ts items).map workKey).toFinset, clip k = k := by
    intro k hk
    obtain ⟨w, -, rfl⟩ := List.mem_map.mp (List.mem_toFinset.mp hk)
    exact clip_keyOf w.1 w.2
  obtain ⟨r, hrun⟩ := pollEach_returns ht hA hS hn
    (fun w hw => List.mem_toFinset.mpr (List.mem_map_of_mem hw)) (ready_zero gen)
  rw [pollItems_eq] at hrun
  obtain ⟨⟨out, values⟩, hitems, -⟩ := Base.bind_eq_ok.mp hrun
  exact ⟨out, values, hitems⟩

/-- **The aggregation of a poll** is exact and does not depend on the order of the regions nor of the
lenses in them; and the poll returns, whatever it starts from, if the hashes of the keys are apart. -/
theorem poll_aggregates {host : CStr} {ts : ℕ} {items : List PollerListItem}
    (hc : Compatible (works host ts items)) :
    (∀ gen out values, pollItems hash fpu rng host ts items (Values.zero gen) = .ok (out, values) →
      Aggregated hash host ts items out values ∧
      ∀ items' gen' out' values', Rearranged items items' →
        pollItems hash fpu rng host ts items' (Values.zero gen') = .ok (out', values') →
        values'.polls.length = values.polls.length ∧
        ∀ w ∈ works host ts items, Agree hash values values' (workKey w)) ∧
    (∀ n < 64, Apart hash n ((works host ts items).map workKey).toFinset → Total fpu rng →
      ∀ items' gen, Rearranged items items' →
        ∃ out values, pollItems hash fpu rng host ts items' (Values.zero gen) = .ok (out, values)) := by
  have hworks : ∀ {items'}, Rearranged items items' →
      (works host ts items).Perm (works host ts items') := works_perm
  constructor
  · intro gen out values h
    have hag := aggregated hc h
    refine ⟨hag, fun items' gen' out' values' hre h' => ?_⟩
    have hc' : Compatible (works host ts items') := fun w hw w' hw' =>
      hc w ((hworks hre).mem_iff.mpr hw) w' ((hworks hre).mem_iff.mpr hw')
    have hag' := aggregated hc' h'
    refine ⟨?_, fun w hw => hag.agree hag' hre hw⟩
    obtain ⟨keys, hnd, hmem, -, hlen, -⟩ := hag.records
    obtain ⟨keys', hnd', hmem', -, hlen', -⟩ := hag'.records
    rw [hlen, hlen']
    refine ((List.perm_ext_iff_of_nodup hnd' hnd).mpr fun k => ?_).length_eq
    rw [hmem, hmem']
    simp only [(hworks hre).mem_iff]
  · intro n hn hA ht items' gen hre
    refine pollItems_returns ht hn (n := n) ?_ gen
    rwa [← List.toFinset_eq_of_perm _ _ ((hworks hre).map workKey)]

end Polls

/-! ### Two regions with one prefix -/

/-- A processor whose conversions give the smallest integer for what does not fit, and where zero
divides a word no times. -/
def saturating : Fpu where
  round := .fin
  toInt d := .ok (match intOf d with
    | .ok n => n
    | .error _ => -2 ^ 31)
  toUInt64 d := .ok (match uint64Of d with
    | .ok n => n
    | .error _ => 2 ^ 63)
  remZero n := .ok n

theorem total_saturating : Total saturating (xorshift saturating) where
  toInt _ := ⟨_, rfl⟩
  genEmpty s min := by
    unfold xorshift rngGenRange Fpu.rem
    dsimp only
    rw [UInt64.sub_self, if_pos rfl]
    exact ⟨_, rfl⟩
  genProb _ _ := ⟨_, rfl⟩

/-- A poll of lenses that all have one key returns. -/
theorem returns_of_one_key {host : CStr} {ts : ℕ} {items : List PollerListItem} {k : CStr}
    (h : ∀ w ∈ works host ts items, workKey w = k) (gen : UInt64) : ∃ out values,
    pollItems htableHash saturating (xorshift saturating) host ts items (Values.zero gen) =
      .ok (out, values) := by
  have hone : ∀ k' ∈ ((works host ts items).map workKey).toFinset, k' = k := by
    intro k' hk
    obtain ⟨w, hw, rfl⟩ := List.mem_map.mp (List.mem_toFinset.mp hk)
    exact h w hw
  exact pollItems_returns total_saturating (show 0 < 64 by decide)
    (fun a ha b hb _ => (hone a ha).trans (hone b hb).symm) gen

def nameH : CStr := ⟨[104], by decide⟩
def nameC : CStr := ⟨[99], by decide⟩

/-- Two regions `a` with a counter `c`; the poll is at 15, and the second region has been polled at
20. -/
def twoRegions : List PollerListItem :=
  [⟨nameA, 10, 0, [⟨nameC, .counter fun _ => 3⟩]⟩, ⟨nameA, 20, 1, [⟨nameC, .counter fun _ => 4⟩]⟩]

theorem poll_aggregates_two : ∃ out values poll,
    pollItems htableHash saturating (xorshift saturating) nameH 15 twoRegions (Values.zero 1) =
      .ok (out, values) ∧
    values.find htableHash ⟨[97, 46, 104, 46, 99], by decide⟩ = some poll ∧
    poll.value = .counter 7 ∧ poll.elapsed = 5 := by
  have hworks : ∀ w ∈ works nameH 15 twoRegions, w.2.data.type = .counter ∧
      boundsOf w.2.data = [] ∧ workKey w = ⟨[97, 46, 104, 46, 99], by decide⟩ := by
    intro w hw
    rcases List.mem_cons.mp hw with rfl | hw
    · exact ⟨rfl, rfl, rfl⟩
    · rw [List.mem_singleton.mp hw]
      exact ⟨rfl, rfl, rfl⟩
  have hc : Compatible (works nameH 15 twoRegions) := fun w hw w' hw' _ =>
    ⟨(hworks w hw).1.trans (hworks w' hw').1.symm, (hworks w hw).2.1.trans (hworks w' hw').2.1.symm⟩
  obtain ⟨hexact, hreturns⟩ := @poll_aggregates UInt64 htableHash saturating
    (xorshift saturating) nameH 15 twoRegions hc
  have hone : ∀ k ∈ ((works nameH 15 twoRegions).map workKey).toFinset,
      k = ⟨[97, 46, 104, 46, 99], by decide⟩ := by
    intro k hk
    obtain ⟨w, hw, rfl⟩ := List.mem_map.mp (List.mem_toFinset.mp hk)
    exact (hworks w hw).2.2
  obtain ⟨out, values, hrun⟩ := hreturns 0 (by decide)
    (fun k hk k' hk' _ => (hone k hk).trans (hone k' hk').symm) total_saturating twoRegions 1
    ⟨twoRegions, .refl _, .cons ⟨rfl, rfl, rfl, .refl _⟩ (.cons ⟨rfl, rfl, rfl, .refl _⟩ .nil)⟩
  obtain ⟨hag, -⟩ := hexact 1 out values hrun
  have hfirst : (⟨15, 5, nameH, nameA, 0⟩, ⟨nameC, .counter fun _ => 3⟩) ∈
      works nameH 15 twoRegions := List.mem_cons_self
  obtain ⟨poll, hfind, hvalue⟩ := hag.counter _ hfirst rfl
  obtain ⟨poll', hfind', -, hgreatest, -⟩ := hag.record _ hfirst
  cases hfind.symm.trans hfind'
  refine ⟨out, values, poll, hrun, hfind, hvalue.trans rfl, hgreatest.unique ⟨?_, ?_⟩⟩
  · exact mem_elapsedTimes.mpr ⟨_, hfirst, rfl, rfl⟩
  · intro e he
    obtain ⟨w, hw, -, rfl⟩ := mem_elapsedTimes.mp he
    rcases List.mem_cons.mp hw with rfl | hw
    · exact le_rfl
    · rw [List.mem_singleton.mp hw]
      decide

end Optics.PollReturns
