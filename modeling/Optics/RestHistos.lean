import Optics.RestDocument

/-! # Two texts of a histogram

A histogram is shown by the REST backend (`write_counter`) and reported to the other backends
(`lens_histo_normalize`), part by part: what was below the first bound, what was at or above the last
one, and the buckets. Both should give the count of each part once, under the name they have for the
part. `write_counter` mixes up the counts of the first two parts, so that it does if these counts are
equal, and only then; the keys of the reports are cut at 255 bytes, so that no name may be too long
(`histo_agrees_iff`). -/

namespace Optics.RestHistos

open Optics.Base Optics.Lenses Optics.LensSlots Optics.LensReads Optics.Doubles
open Optics.Utils.Keys Optics.Utils.Buffers Optics.Utils.Formats
open Optics.Lib.Decimals Optics.Lib.JsonText
open Optics.Polling Optics.PollReturns Optics.BackendRest Optics.RestDocument

/-! ### Normalizing -/

/-- `_` -/
def underscore : UInt8 := 95

/-- The name of a bucket, with a byte between its bounds. -/
def bucketWith (sep : UInt8) (lo hi : UInt64) : List UInt8 :=
  bucketText ++ (formatU lo ++ sep :: formatU hi)

/-- A name for each part of a histogram. -/
def labelWith (sep : UInt8) (histo : OpticsHisto) : Part → List UInt8
  | .value => []
  | .below => belowName
  | .above => aboveName
  | .counts i => bucketWith sep (histo.buckets.getD i 0) (histo.buckets.getD (i + 1) 0)

theorem partLabel_eq (histo : OpticsHisto) (part : Part) :
    partLabel histo part = labelWith dash histo part := by
  cases part <;> rfl

theorem zero_notMem_bucketWith (lo hi : UInt64) : (0 : UInt8) ∉ bucketWith underscore lo hi := by
  have hplain : Plain (bucketWith underscore lo hi) := .append (by decide)
    (.append (plain_formatU lo) (.append (s := [underscore]) (by decide) (plain_formatU hi)))
  exact fun h => absurd (hplain 0 h).2.2.1 (by decide)

/-- `bucket_%lu_%lu` -/
def normalBucket (lo hi : UInt64) : CStr := ⟨bucketWith underscore lo hi, zero_notMem_bucketWith lo hi⟩

/-- The name under which a part is reported. -/
def normalLabel (histo : OpticsHisto) : Part → CStr
  | .value => CStr.empty
  | .below => ⟨belowName, by decide⟩
  | .above => ⟨aboveName, by decide⟩
  | .counts i => normalBucket (histo.buckets.getD i 0) (histo.buckets.getD (i + 1) 0)

theorem normalLabel_val (histo : OpticsHisto) (part : Part) :
    (normalLabel histo part).val = labelWith underscore histo part := by
  cases part <;> rfl

/-- `lens_rescale`. -/
def lensRescale (fpu : Fpu) (poll : OpticsPoll) (n : UInt64) : Double :=
  fpu.div (.fin (doubleOf n)) (.fin (doubleOf (.ofNat poll.elapsed)))

section Normalize
variable {α β : Type} (rescale : OpticsPoll → UInt64 → α) (cb : β → ℕ → CStr → α → β × Bool)

/-- A part of a histogram, reported: a push, the callback and a pop. -/
def reportPart (push : OpticsKey → CStr → Outcome (OpticsKey × ℕ)) (poll : OpticsPoll) (label : CStr)
    (n : UInt64) (key : OpticsKey) (ctx : β) : Outcome (Bool × OpticsKey × β) := do
  let (key, old) ← push key label
  let (ctx, ret) := cb ctx poll.ts key.str (rescale poll n)
  let key ← opticsKeyPop key old
  .ok (ret, key, ctx)

/-- The loop of `lens_histo_normalize`. -/
def normalizeBuckets (poll : OpticsPoll) (histo : OpticsHisto) : ℕ → ℕ → OpticsKey → β →
    Outcome (Bool × β)
  | 0, _, _, ctx => .ok (true, ctx)
  | rounds + 1, i, key, ctx => do
    let (lo, hi, n) ← bucketAt histo i
    let (ret, key, ctx) ← reportPart rescale cb opticsKeyPushf poll (normalBucket lo hi) n key ctx
    if ret then normalizeBuckets poll histo rounds (i + 1) key ctx else .ok (false, ctx)

/-- `lens_histo_normalize`. -/
def lensHistoNormalize (poll : OpticsPoll) (ctx : β) : Outcome (Bool × β) :=
  match poll.value with
  | .histo histo => do
    let (key, _) ← opticsKeyPush OpticsKey.zero poll.key
    let (ret, key, ctx) ← reportPart rescale cb opticsKeyPush poll (normalLabel histo .below)
      histo.below key ctx
    if ret = false then .ok (false, ctx)
    else do
      let (ret, key, ctx) ← reportPart rescale cb opticsKeyPush poll (normalLabel histo .above)
        histo.above key ctx
      if ret = false then .ok (false, ctx)
      else do
        let rounds ← bucketRounds histo
        normalizeBuckets rescale cb poll histo rounds 0 key ctx
  | _ => .error .undefined

end Normalize

/-- The loop over the buckets of a histogram stays among its bounds and counts. -/
def Walks : OpticsPollValue → Prop
  | .histo histo => 1 ≤ histo.buckets.length ∧ histo.buckets.length ≤ opticsHistoBucketsMax + 1
  | _ => True

theorem walks_of_shaped {v : OpticsPollValue} (h : Shaped v) : Walks v := by
  cases v with
  | histo histo => exact ⟨Nat.le_of_succ_le h.1, h.2⟩
  | _ => trivial

/-! ### The reports -/

/-- The reports of a histogram to a callback that keeps them all. -/
def histoReports {α : Type} (rescale : OpticsPoll → UInt64 → α) (poll : OpticsPoll) :
    Outcome (List (CStr × α)) := do
  let (_, reports) ← lensHistoNormalize rescale
    (fun reports _ key v => (reports ++ [(key, v)], true)) poll []
  .ok reports

/-- The key under which a part is reported. -/
def reportKey (poll : OpticsPoll) (label : CStr) : CStr :=
  ⟨(join poll.key.val label.val).take (opticsNameMaxLen - 1), fun h =>
    zero_notMem_join poll.key.property label.property (List.mem_of_mem_take h)⟩

/-- The callback is called with one report after the other, until it answers no. -/
def callAll {α β : Type} (cb : β → ℕ → CStr → α → β × Bool) (ts : ℕ) :
    List (CStr × α) → β → Bool × β
  | [], ctx => (true, ctx)
  | report :: reports, ctx =>
    let answer := cb ctx ts report.1 report.2
    if answer.2 then callAll cb ts reports answer.1 else (false, answer.1)

section Reports
variable {α β : Type} (rescale : OpticsPoll → UInt64 → α) (cb : β → ℕ → CStr → α → β × Bool)
  {poll : OpticsPoll}

/-- **A part** is reported under its name, and the key is as it was. -/
theorem reportPart_spec {push : OpticsKey → CStr → Outcome (OpticsKey × ℕ)}
    (hpush : push = opticsKeyPush ∨ push = opticsKeyPushf) {key : OpticsKey}
    (hkey : key.Holds (poll.key.val.take (opticsNameMaxLen - 1))) (label : CStr) (n : UInt64)
    (ctx : β) :
    ∃ key', reportPart rescale cb push poll label n key ctx =
        .ok ((cb ctx poll.ts (reportKey poll label) (rescale poll n)).2, key',
          (cb ctx poll.ts (reportKey poll label) (rescale poll n)).1) ∧
      key'.Holds (poll.key.val.take (opticsNameMaxLen - 1)) := by
  have hlen : (poll.key.val.take (opticsNameMaxLen - 1)).length ≤ opticsNameMaxLen - 1 :=
    List.length_take_le _ _
  -- the key with the name behind it
  obtain ⟨key1, hrun, hkey1⟩ : ∃ key1, push key label =
      .ok (key1, (poll.key.val.take (opticsNameMaxLen - 1)).length) ∧
      key1.Holds (reportKey poll label).val := by
    rcases hpush with rfl | rfl
    · obtain ⟨key1, hrun, hkey1⟩ := opticsKeyPush_spec hkey label
      rw [show opticsNameMaxLen - 1 = 254 + 1 from rfl, join_take] at hkey1
      exact ⟨key1, hrun, hkey1⟩
    · obtain ⟨key1, hrun, hkey1⟩ :=
        opticsKeyPush_spec hkey (label.take (opticsNameMaxLen - 1))
      rw [CStr.take_val, join_take_right, show opticsNameMaxLen - 1 = 254 + 1 from rfl,
        join_take] at hkey1
      exact ⟨key1, hrun, hkey1⟩
  have hbegins : poll.key.val.take (opticsNameMaxLen - 1) <+: (reportKey poll label).val := by
    have h := prefix_join_take hlen label.val
    rwa [show opticsNameMaxLen - 1 = 254 + 1 from rfl, join_take] at h
  obtain ⟨key2, hpop, hkey2⟩ := opticsKeyPop_spec hkey1 hbegins
  refine ⟨key2, ?_, hkey2⟩
  have hstr : key1.str = reportKey poll label := Subtype.ext hkey1.str
  rw [reportPart, hrun, ok_bind]
  dsimp only
  rw [hpop, ok_bind, hstr]

theorem normalizeBuckets_spec {histo : OpticsHisto} (h : Walks (.histo histo)) :
    ∀ {rounds i : ℕ} {key : OpticsKey}, i + rounds = histo.buckets.length - 1 →
      key.Holds (poll.key.val.take (opticsNameMaxLen - 1)) → ∀ ctx : β,
      normalizeBuckets rescale cb poll histo rounds i key ctx =
        .ok (callAll cb poll.ts ((((List.finRange opticsHistoBucketsMax).take
          (histo.buckets.length - 1)).drop i).map fun j =>
            (reportKey poll (normalLabel histo (.counts j)), rescale poll (histo.counts j))) ctx)
  | 0, i, key, hi, hkey, ctx => by
    rw [List.drop_eq_nil_of_le (by rw [List.length_take]; omega), List.map_nil]
    rfl
  | rounds + 1, i, key, hi, hkey, ctx => by
    obtain ⟨h1, h9⟩ := h
    have hlt : i < opticsHistoBucketsMax := by omega
    obtain ⟨key1, hpart, hkey1⟩ := reportPart_spec rescale cb (.inr rfl) hkey
      (normalLabel histo (.counts ⟨i, hlt⟩)) (histo.counts ⟨i, hlt⟩) ctx
    have hrest := normalizeBuckets_spec ⟨h1, h9⟩
      (show i + 1 + rounds = histo.buckets.length - 1 by omega) hkey1
      (cb ctx poll.ts (reportKey poll (normalLabel histo (.counts ⟨i, hlt⟩)))
        (rescale poll (histo.counts ⟨i, hlt⟩))).1
    have hlen : i < ((List.finRange opticsHistoBucketsMax).take
        (histo.buckets.length - 1)).length := by
      rw [List.length_take, List.length_finRange]
      omega
    have hget : ((List.finRange opticsHistoBucketsMax).take (histo.buckets.length - 1))[i] =
        ⟨i, hlt⟩ := by
      rw [List.getElem_take, List.getElem_finRange]
      rfl
    rw [List.drop_eq_getElem_cons hlen, hget, List.map_cons, callAll, normalizeBuckets,
      bucketAt_spec (by omega) hlt, ok_bind]
    dsimp only
    rw [show normalBucket (histo.buckets.getD i 0) (histo.buckets.getD (i + 1) 0) =
      normalLabel histo (.counts ⟨i, hlt⟩) from rfl, hpart, ok_bind]
    dsimp only
    rw [hrest]
    split
    · rfl
    · rfl

theorem goOn_eq {ret : Bool} {ctx : β} {rest : Outcome (Bool × β)} {r : Bool × β}
    (h : rest = .ok r) : (if ret = false then .ok (false, ctx) else rest) =
      Except.ok (if ret = true then r else (false, ctx)) := by
  cases ret with
  | false => rfl
  | true => exact h

/-- **The reports of a histogram**: each part in order, under its name. -/
theorem lensHistoNormalize_spec {histo : OpticsHisto} (h : Walks (.histo histo))
    (hvalue : poll.value = .histo histo) (ctx : β) :
    lensHistoNormalize rescale cb poll ctx = .ok (callAll cb poll.ts ((histoParts histo).map
      fun part => (reportKey poll (normalLabel histo part), rescale poll (histo.get part))) ctx) := by
  have hrounds : bucketRounds histo = .ok (histo.buckets.length - 1) := by
    have := h.1
    exact if_neg (by omega)
  obtain ⟨key0, hpush, hkey0⟩ := opticsKeyPush_spec OpticsKey.holds_zero poll.key
  obtain ⟨key1, hbelow, hkey1⟩ := reportPart_spec rescale cb (.inl rfl) hkey0
    (normalLabel histo .below) histo.below ctx
  unfold lensHistoNormalize
  simp only [hvalue, histoParts, List.map_cons, List.map_map, callAll]
  rw [hpush, ok_bind]
  dsimp only
  rw [hbelow, ok_bind]
  refine goOn_eq ?_
  obtain ⟨key2, habove, hkey2⟩ := reportPart_spec rescale cb (.inl rfl) hkey1
    (normalLabel histo .above) histo.above
    (cb ctx poll.ts (reportKey poll (normalLabel histo .below)) (rescale poll histo.below)).1
  dsimp only
  rw [habove, ok_bind]
  refine goOn_eq ?_
  rw [hrounds, ok_bind]
  exact normalizeBuckets_spec rescale cb h (Nat.zero_add (histo.buckets.length - 1)) hkey2 _

theorem reportPart_answer {push : OpticsKey → CStr → Outcome (OpticsKey × ℕ)} {label : CStr}
    {n : UInt64} {key key' : OpticsKey} {ctx ctx' : β} {ret : Bool}
    (hyes : ∀ ctx ts key v, (cb ctx ts key v).2 = true)
    (h : reportPart rescale cb push poll label n key ctx = .ok (ret, key', ctx')) : ret = true := by
  obtain ⟨⟨key1, old⟩, -, h⟩ := Base.bind_eq_ok.mp h
  obtain ⟨key2, -, h⟩ := Base.bind_eq_ok.mp h
  cases h
  exact hyes _ _ _ _

theorem bucketAt_lt {histo : OpticsHisto} {i : ℕ} {bucket : UInt64 × UInt64 × UInt64}
    (h : bucketAt histo i = .ok bucket) : i < opticsHistoBucketsMax := by
  unfold bucketAt at h
  split at h
  · split_ifs at h with hlt
    exact hlt
  · cases h

/-- A loop that returns has found the counts of all its buckets, if the callback never answers no. -/
theorem normalizeBuckets_walks {histo : OpticsHisto}
    (hyes : ∀ ctx ts key v, (cb ctx ts key v).2 = true) :
    ∀ {rounds i : ℕ} {key : OpticsKey} {ctx : β} {r : Bool × β}, i ≤ opticsHistoBucketsMax →
      normalizeBuckets rescale cb poll histo rounds i key ctx = .ok r →
      i + rounds ≤ opticsHistoBucketsMax
  | 0, i, key, ctx, r, hi, _ => hi
  | rounds + 1, i, key, ctx, r, hi, h => by
    obtain ⟨⟨lo, hi', n⟩, hbucket, h⟩ := Base.bind_eq_ok.mp h
    obtain ⟨⟨ret, key1, ctx1⟩, hpart, h⟩ := Base.bind_eq_ok.mp h
    have hlt : i < opticsHistoBucketsMax := bucketAt_lt hbucket
    dsimp only at h
    rw [if_pos (reportPart_answer rescale cb hyes hpart)] at h
    have hrest := normalizeBuckets_walks hyes (Nat.succ_le_of_lt hlt) h
    omega

/-- **Reports that return** are those of a histogram that can be walked, if the callback never
answers no. -/
theorem lensHistoNormalize_walks {ctx : β} {r : Bool × β}
    (hyes : ∀ ctx ts key v, (cb ctx ts key v).2 = true)
    (h : lensHistoNormalize rescale cb poll ctx = .ok r) : Walks poll.value := by
  unfold lensHistoNormalize at h
  split at h
  · rename_i histo hvalue
    obtain ⟨⟨key0, old⟩, -, h⟩ := Base.bind_eq_ok.mp h
    obtain ⟨⟨ret1, key1, ctx1⟩, hbelow, h⟩ := Base.bind_eq_ok.mp h
    dsimp only at h
    rw [reportPart_answer rescale cb hyes hbelow, if_neg (by decide)] at h
    obtain ⟨⟨ret2, key2, ctx2⟩, habove, h⟩ := Base.bind_eq_ok.mp h
    dsimp only at h
    rw [reportPart_answer rescale cb hyes habove, if_neg (by decide)] at h
    obtain ⟨rounds, hrounds, h⟩ := Base.bind_eq_ok.mp h
    have hmax := normalizeBuckets_walks rescale cb hyes (Nat.zero_le _) h
    rw [hvalue]
    unfold bucketRounds at hrounds
    split_ifs at hrounds with hzero
    cases hrounds
    exact ⟨Nat.one_le_iff_ne_zero.mpr hzero, by omega⟩
  · cases h

theorem callAll_append (ts : ℕ) : ∀ reports kept : List (CStr × α),
    callAll (fun reports _ key v => (reports ++ [(key, v)], true)) ts reports kept =
      (true, kept ++ reports)
  | [], kept => by rw [List.append_nil]; rfl
  | report :: reports, kept => by
    rw [List.append_cons]
    exact callAll_append ts reports (kept ++ [report])

theorem histoReports_spec {histo : OpticsHisto} (h : Shaped (.histo histo))
    (hvalue : poll.value = .histo histo) :
    histoReports rescale poll = .ok ((histoParts histo).map fun part =>
      (reportKey poll (normalLabel histo part), rescale poll (histo.get part))) := by
  rw [histoReports, lensHistoNormalize_spec rescale _ (walks_of_shaped h) hvalue, callAll_append,
    ok_bind,
    List.nil_append]

end Reports

/-! ### Names apart -/

/-- A name tells the bounds of its bucket. -/
theorem bucketWith_inj {sep : UInt8} (hsep : isDigit sep = false) {lo hi lo' hi' : UInt64}
    (h : bucketWith sep lo hi = bucketWith sep lo' hi') : lo = lo' := by
  have hsplit : ∀ lo hi : UInt64, splitDigits (formatU lo ++ sep :: formatU hi) =
      (formatU lo, sep :: formatU hi) := fun lo hi =>
    splitDigits_append (fun c hc => decimal_digits hc) fun c hc => by
      cases hc
      exact hsep
  have heq : formatU lo = formatU lo' := by
    have h1 := congrArg splitDigits (List.append_cancel_left h)
    rw [hsplit, hsplit] at h1
    exact (Prod.mk.inj h1).1
  exact UInt64.toNat_inj.mp (decimal_inj heq)

theorem counts_mem_histoParts {histo : OpticsHisto} {i : Fin opticsHistoBucketsMax} :
    Part.counts i ∈ histoParts histo ↔ i.val + 1 < histo.buckets.length := by
  unfold histoParts
  simp only [List.mem_cons, reduceCtorEq, false_or, List.mem_map, Part.counts.injEq, exists_eq_right,
    List.mem_take_iff_getElem, List.length_finRange, List.getElem_finRange]
  constructor
  · rintro ⟨j, hj, rfl⟩
    show j + 1 < histo.buckets.length
    omega
  · intro hi
    exact ⟨i.val, by omega, rfl⟩

/-- **The names of the parts** of a histogram with increasing bounds are apart. -/
theorem labelWith_inj {sep : UInt8} (hsep : isDigit sep = false) {histo : OpticsHisto}
    (hinc : histo.buckets.Pairwise (· < ·)) {p q : Part} (hp : p ∈ histoParts histo)
    (hq : q ∈ histoParts histo) (h : labelWith sep histo p = labelWith sep histo q) : p = q := by
  have hvalue : Part.value ∉ histoParts histo :=
    LensData.value_notMem_histo (fun _ => ⟨0, 0, fun _ => 0⟩) histo.buckets
  have hhead : ∀ {lo hi : UInt64}, (bucketWith sep lo hi).take 2 = [98, 117] := rfl
  have hbelow : ∀ {i : Fin opticsHistoBucketsMax},
      labelWith sep histo (.counts i) ≠ belowName := fun hc => by
    have h2 := congrArg (List.take 2) hc
    rw [labelWith, hhead] at h2
    cases h2
  have habove : ∀ {i : Fin opticsHistoBucketsMax},
      labelWith sep histo (.counts i) ≠ aboveName := fun hc => by
    have h2 := congrArg (List.take 2) hc
    rw [labelWith, hhead] at h2
    cases h2
  cases p with
  | value => exact absurd hp hvalue
  | below =>
    cases q with
    | value => exact absurd hq hvalue
    | below => rfl
    | above => exact absurd (show belowName = aboveName from h) (by decide)
    | counts j => exact absurd h.symm hbelow
  | above =>
    cases q with
    | value => exact absurd hq hvalue
    | below => exact absurd (show aboveName = belowName from h) (by decide)
    | above => rfl
    | counts j => exact absurd h.symm habove
  | counts i =>
    cases q with
    | value => exact absurd hq hvalue
    | below => exact absurd h hbelow
    | above => exact absurd h habove
    | counts j =>
      have hi := counts_mem_histoParts.mp hp
      have hj := counts_mem_histoParts.mp hq
      have hlo := bucketWith_inj hsep h
      rw [List.getD_eq_getElem _ _ (Nat.lt_of_succ_lt hi),
        List.getD_eq_getElem _ _ (Nat.lt_of_succ_lt hj)] at hlo
      have hnodup : histo.buckets.Nodup := hinc.imp fun hlt heq => by
        rw [heq] at hlt
        exact UInt64.lt_irrefl _ hlt
      exact congrArg Part.counts (Fin.ext ((List.Nodup.getElem_inj_iff hnodup).mp hlo))

theorem filter_map_eq {α β γ : Type} [DecidableEq α] [DecidableEq β] {l : List α} (hl : l.Nodup)
    {f : α → β} (hf : ∀ x ∈ l, ∀ y ∈ l, f x = f y → x = y) (g : α → γ) {a : α} (ha : a ∈ l) :
    ((l.map fun x => (f x, g x)).filter fun r => r.1 = f a).map Prod.snd = [g a] := by
  have hfilter : l.filter (fun x => f x = f a) = [a] := by
    rw [List.filter_congr (q := fun x => x = a) fun x hx => ?_, List.filter_eq,
      List.count_eq_one_of_mem hl ha]
    · rfl
    · exact decide_eq_decide.mpr ⟨hf x hx a ha, fun h => h ▸ rfl⟩
  rw [List.filter_map, show (fun r : β × γ => decide (r.1 = f a)) ∘ (fun x => (f x, g x)) =
    fun x => decide (f x = f a) from rfl, hfilter]
  rfl

/-! ### What has been recorded -/

/-- Values recorded one after the other in an epoch. -/
def recordAll (epoch : Fin 2) : List Double → LensData → Outcome LensData
  | [], lens => .ok lens
  | v :: values, lens => do
    let (_, lens) ← lensHistoInc lens epoch v
    recordAll epoch values lens

/-- The histogram has been read from a lens into which these values had been recorded since the last
read. -/
def Recorded (values : List Double) (histo : OpticsHisto) : Prop :=
  ∃ epochs epoch lens, (∀ part, (epochs epoch : LensHistoEpoch).get part = 0) ∧
    recordAll epoch values (.histo epochs histo.buckets) = .ok lens ∧
    (lensHistoRead lens epoch ⟨[], 0, 0, fun _ => 0⟩).2.1 = histo

theorem recordAll_spec {epoch : Fin 2} {buckets : List UInt64} : ∀ {values : List Double}
    {epochs : Fin 2 → LensHistoEpoch} {lens : LensData},
    recordAll epoch values (.histo epochs buckets) = .ok lens →
    ∃ epochs', lens = .histo epochs' buckets ∧ ∀ part, part ≠ .value →
      (epochs' epoch).get part = (epochs epoch).get part +
        .ofNat (values.countP fun v => histoPart buckets v = some part)
  | [], epochs, lens, h => by
    cases h
    exact ⟨epochs, rfl, fun part _ => (UInt64.add_zero _).symm⟩
  | v :: values, epochs, lens, h => by
    obtain ⟨⟨ret, lens1⟩, hinc, h⟩ := Base.bind_eq_ok.mp h
    unfold lensHistoInc at hinc
    dsimp only at hinc
    rcases hpart : histoPart buckets v with _ | p
    · rw [hpart] at hinc
      cases hinc
    · rw [hpart] at hinc
      cases hinc
      obtain ⟨epochs', rfl, hget⟩ := recordAll_spec h
      have hpne : p ≠ .value := fun hc =>
        LensData.value_notMem_histo epochs buckets (hc ▸ histoPart_mem hpart epochs)
      refine ⟨epochs', rfl, fun part hne => ?_⟩
      rw [hget part hne, Function.update_self, LensHistoEpoch.get_set _ _ hpne, List.countP_cons,
        hpart]
      by_cases hp : part = p
      · subst hp
        rw [if_pos rfl]
        have h1 : UInt64.ofNat 1 = 1 := rfl
        simp only [LensData.slot, decide_true, if_true, UInt64.ofNat_add, h1]
        abel
      · rw [if_neg hp]
        simp [Ne.symm hp]

/-- **A part that has been read** is the number of the values recorded into it. -/
theorem Recorded.get {values : List Double} {histo : OpticsHisto} (h : Recorded values histo)
    {part : Part} (hpart : part ∈ histoParts histo) :
    histo.get part = .ofNat (values.countP fun v => histoPart histo.buckets v = some part) := by
  obtain ⟨epochs, epoch, lens, hzero, hrecord, hread⟩ := h
  obtain ⟨epochs', rfl, hget⟩ := recordAll_spec hrecord
  obtain ⟨value', hrun, -, hvalue⟩ := @lensHistoRead_spec epochs' histo.buckets
    ⟨[], 0, 0, fun _ => 0⟩ (.inl rfl) epoch
  rw [hrun] at hread
  have hsame : value' = histo := hread
  have hne : part ≠ .value := fun hc =>
    LensData.value_notMem_histo epochs histo.buckets (hc ▸ hpart)
  have hslot : (LensData.histo epochs' histo.buckets).slot epoch part = (epochs' epoch).get part := rfl
  have hpart' : part ∈ (LensData.histo epochs' histo.buckets).parts := hpart
  have hfresh : OpticsHisto.get ⟨[], 0, 0, fun _ => 0⟩ part = 0 := by cases part <;> rfl
  have hget' := hvalue part
  rw [if_pos hpart', hslot, hget part hne, hzero part, hfresh, UInt64.zero_add, UInt64.zero_add,
    hsame] at hget'
  exact hget'

/-! ### Both texts -/

/-- The count of a part stands once among the members of the text, and once among the reports, under
the names for the part. -/
structure Agrees (poll : OpticsPoll) (histo : OpticsHisto) (members : List (List UInt8 × Json))
    (reports : List (CStr × UInt64)) (part : Part) : Prop where
  written : (members.filter fun m => m.1 = partLabel histo part).map Prod.snd =
    [.num (histo.get part).toNat]
  reported : (reports.filter fun r => r.1.val = join poll.key.val (normalLabel histo part).val).map
    Prod.snd = [histo.get part]

/-- What `write_counter` writes behind the key of a metric is an object of JSON, and what
`lens_histo_normalize` reports are some counts, divided by the time elapsed; in both there is each part
of the histogram once, and nothing else, with its count under its name. -/
def TextsAgree (signs : Signs) (poll : OpticsPoll) (histo : OpticsHisto) : Prop :=
  ∃ text members reports,
    (∀ buffer s key, buffer.Holds s → ∃ buffer',
      writeCounter signs buffer ⟨key, poll.value⟩ = .ok buffer' ∧
      buffer'.Holds (s ++ field key.val text)) ∧
    parse text = some (.obj members) ∧
    histoReports (fun _ n => n) poll = .ok reports ∧
    (∀ fpu, histoReports (lensRescale fpu) poll =
      .ok (reports.map fun r => (r.1, lensRescale fpu poll r.2))) ∧
    members.length = (histoParts histo).length ∧ reports.length = (histoParts histo).length ∧
    ∀ part ∈ histoParts histo, Agrees poll histo members reports part

theorem texts (signs : Signs) {poll : OpticsPoll} {histo : OpticsHisto} (h : Shaped (.histo histo))
    (hvalue : poll.value = .histo histo) :
    ∃ text, (∀ (buffer : Buffer) s (key : CStr), buffer.Holds s →
        ∃ buffer', writeCounter signs buffer ⟨key, poll.value⟩ = .ok buffer' ∧
          buffer'.Holds (s ++ field key.val text)) ∧
      parse text = some (.obj ((histoParts histo).map fun part =>
        (partLabel histo part, .num (histo.get (printedPart part)).toNat))) := by
  rw [hvalue]
  refine ⟨(metricMember signs ⟨poll.key, .histo histo⟩).text, fun buffer s key hb => ?_, ?_⟩
  · exact @writeCounter_spec signs ⟨key, .histo histo⟩ h _ _ hb
  · rw [(@metricMember_isValue signs ⟨poll.key, .histo histo⟩ trivial).parse_eq]
    show some (Json.obj (memberValues ((histoParts histo).map fun part =>
      natMember (partLabel histo part) (histo.get (printedPart part))))) = _
    rw [memberValues, List.map_map]
    rfl

theorem histoParts_nodup (histo : OpticsHisto) : (histoParts histo).Nodup :=
  LensData.parts_nodup (.histo (fun _ => ⟨0, 0, fun _ => 0⟩) histo.buckets)

theorem reportKey_val {poll : OpticsPoll} {label : CStr}
    (h : (join poll.key.val label.val).length ≤ opticsNameMaxLen - 1) :
    (reportKey poll label).val = join poll.key.val label.val := List.take_of_length_le h

theorem reportKey_inj {poll : OpticsPoll} {label label' : CStr}
    (h : (join poll.key.val label.val).length ≤ opticsNameMaxLen - 1)
    (h' : (join poll.key.val label'.val).length ≤ opticsNameMaxLen - 1)
    (heq : reportKey poll label = reportKey poll label') : label.val = label'.val := by
  have hjoin := congrArg Subtype.val heq
  rw [reportKey_val h, reportKey_val h'] at hjoin
  unfold join at hjoin
  split_ifs at hjoin
  · exact hjoin
  · exact (List.cons.inj (List.append_cancel_left hjoin)).2

/-- Which values are below the first bound, and which are at or above the last one. -/
theorem histoPart_ends (buckets : List UInt64) (v : Double) :
    (histoPart buckets v = some .below ↔ v.lt (buckets.getD 0 0) = true) ∧
    (histoPart buckets v = some .above ↔ v.lt (buckets.getD 0 0) = false ∧
      v.ge (buckets.getD (buckets.length - 1) 0) = true) := by
  unfold histoPart
  generalize v.lt (buckets.getD 0 0) = lower
  generalize v.ge (buckets.getD (buckets.length - 1) 0) = upper
  cases lower
  · cases upper
    · rcases findBucket v 0 buckets.tail with _ | i
      · simp
      · by_cases hi : i < opticsHistoBucketsMax <;> simp [hi]
    · simp
  · simp

theorem members_unique {signs : Signs} {poll : OpticsPoll} {histo : OpticsHisto} (hvalue : poll.value = .histo histo)
    (hlen : Shaped (.histo histo)) {text : List UInt8} {members : List (List UInt8 × Json)}
    (hwrite : ∀ (buffer : Buffer) s (key : CStr), buffer.Holds s →
      ∃ buffer', writeCounter signs buffer ⟨key, poll.value⟩ = .ok buffer' ∧
        buffer'.Holds (s ++ field key.val text))
    (hparse : parse text = some (.obj members)) :
    members = (histoParts histo).map fun part =>
      (partLabel histo part, .num (histo.get (printedPart part)).toNat) := by
  obtain ⟨text', hwrite', hparse'⟩ := texts signs hlen hvalue
  obtain ⟨b, hrun, hb⟩ := hwrite Buffer.zero [] poll.key Buffer.holds_zero
  obtain ⟨b', hrun', hb'⟩ := hwrite' Buffer.zero [] poll.key Buffer.holds_zero
  cases hrun.symm.trans hrun'
  have htext : text = text' := by
    have h := hb.contents.symm.trans hb'.contents
    exact (List.cons.inj (List.cons.inj (List.append_cancel_left (List.cons.inj h).2)).2).2
  subst htext
  exact Json.obj.inj (Option.some.inj (hparse.symm.trans hparse'))

theorem printed {histo : OpticsHisto} (hinc : histo.buckets.Pairwise (· < ·)) {part : Part}
    (hpart : part ∈ histoParts histo) : (((histoParts histo).map fun part =>
      (partLabel histo part, Json.num (histo.get (printedPart part)).toNat)).filter fun m =>
        m.1 = partLabel histo part).map Prod.snd = [.num (histo.get (printedPart part)).toNat] := by
  refine filter_map_eq (histoParts_nodup histo) (fun p hp q hq h => ?_) _ hpart
  rw [partLabel_eq, partLabel_eq] at h
  exact @labelWith_inj dash rfl _ hinc p q hp hq h

section Agree
variable {signs : Signs} {poll : OpticsPoll} {histo : OpticsHisto}

/-- The document shows the number above in place of the number below. -/
theorem TextsAgree.below_eq (h : TextsAgree signs poll histo) (hvalue : poll.value = .histo histo)
    (hlen : 2 ≤ histo.buckets.length ∧ histo.buckets.length ≤ opticsHistoBucketsMax + 1)
    (hinc : histo.buckets.Pairwise (· < ·)) : histo.below = histo.above := by
  obtain ⟨text, members, reports, hwrite, hparse, -, -, -, -, hagree⟩ := h
  rw [members_unique hvalue hlen hwrite hparse] at hagree
  have hbelow := (hagree .below List.mem_cons_self).written
  rw [printed hinc List.mem_cons_self] at hbelow
  have hnum : ((histo.above.toNat : ℚ)) = histo.below.toNat :=
    Json.num.inj (List.cons.inj hbelow).1
  exact UInt64.toNat_inj.mp (Nat.cast_inj.mp hnum).symm

/-- A name that is cut is not the one the document shows. -/
theorem TextsAgree.fits (h : TextsAgree signs poll histo) (hvalue : poll.value = .histo histo)
    (hlen : 2 ≤ histo.buckets.length ∧ histo.buckets.length ≤ opticsHistoBucketsMax + 1) {part : Part}
    (hpart : part ∈ histoParts histo) :
    (join poll.key.val (normalLabel histo part).val).length ≤ opticsNameMaxLen - 1 := by
  obtain ⟨text, members, reports, -, -, hreports, -, -, -, hagree⟩ := h
  cases (histoReports_spec (fun _ n => n) hlen hvalue).symm.trans hreports
  have hmem : histo.get part ∈ [histo.get part] := List.mem_cons_self
  rw [← (hagree part hpart).reported] at hmem
  obtain ⟨r, hr, -⟩ := List.mem_map.mp hmem
  obtain ⟨hr, hkey⟩ := List.mem_filter.mp hr
  obtain ⟨p, -, rfl⟩ := List.mem_map.mp hr
  have hjoin : (reportKey poll (normalLabel histo p)).val =
      join poll.key.val (normalLabel histo part).val := of_decide_eq_true hkey
  rw [← hjoin]
  exact List.length_take_le _ _

theorem textsAgree_of_fits (hvalue : poll.value = .histo histo)
    (hlen : 2 ≤ histo.buckets.length ∧ histo.buckets.length ≤ opticsHistoBucketsMax + 1)
    (hinc : histo.buckets.Pairwise (· < ·)) (hsame : histo.below = histo.above)
    (hfits : ∀ part ∈ histoParts histo,
      (join poll.key.val (normalLabel histo part).val).length ≤ opticsNameMaxLen - 1) :
    TextsAgree signs poll histo := by
  obtain ⟨text, hwrite, hparse⟩ := texts signs hlen hvalue
  refine ⟨text, _, _, hwrite, hparse, histoReports_spec _ hlen hvalue, fun fpu => ?_, ?_, ?_,
    fun part hpart => ⟨?_, ?_⟩⟩
  · rw [histoReports_spec _ hlen hvalue, List.map_map]
    rfl
  · rw [List.length_map]
  · rw [List.length_map]
  · rw [printed hinc hpart]
    cases part with
    | below => exact congrArg (fun n : UInt64 => [Json.num n.toNat]) hsame.symm
    | above => exact congrArg (fun n : UInt64 => [Json.num n.toNat]) hsame
    | value => rfl
    | counts i => rfl
  · have hfilter : ∀ r : CStr × UInt64,
        decide (r.1.val = join poll.key.val (normalLabel histo part).val) =
          decide (r.1 = reportKey poll (normalLabel histo part)) := fun r => by
      rw [decide_eq_decide, Subtype.ext_iff, reportKey_val (hfits part hpart)]
    simp only [hfilter]
    refine filter_map_eq (f := fun part => reportKey poll (normalLabel histo part))
      (histoParts_nodup histo)
      (fun p hp q hq h => @labelWith_inj underscore rfl _ hinc p q hp hq ?_) _ hpart
    rw [← normalLabel_val, ← normalLabel_val]
    exact reportKey_inj (hfits p hp) (hfits q hq) h

theorem Recorded.ends {values : List Double} (h : Recorded values histo) :
    histo.below = .ofNat (values.countP fun v => v.lt (histo.buckets.getD 0 0)) ∧
    histo.above = .ofNat (values.countP fun v => !v.lt (histo.buckets.getD 0 0) &&
      v.ge (histo.buckets.getD (histo.buckets.length - 1) 0)) := by
  constructor
  · refine (h.get (show .below ∈ histoParts histo from List.mem_cons_self)).trans ?_
    refine congrArg UInt64.ofNat (List.countP_congr fun v _ => ?_)
    rw [decide_eq_true_eq, (histoPart_ends histo.buckets v).1]
  · refine (h.get (show .above ∈ histoParts histo from
      List.mem_cons_of_mem _ List.mem_cons_self)).trans ?_
    refine congrArg UInt64.ofNat (List.countP_congr fun v _ => ?_)
    rw [decide_eq_true_eq, (histoPart_ends histo.buckets v).2, Bool.and_eq_true, Bool.not_eq_true']

end Agree

/-- **The texts of a histogram** agree exactly if as many values were below the first bound as at or
above the last one, and no name is cut. The number below is that of the values recorded below the first
bound, the number above that of the values recorded at or above the last. -/
theorem histo_agrees_iff (signs : Signs) {poll : OpticsPoll} {histo : OpticsHisto} (hvalue : poll.value = .histo histo)
    (hlen : 2 ≤ histo.buckets.length ∧ histo.buckets.length ≤ opticsHistoBucketsMax + 1)
    (hinc : histo.buckets.Pairwise (· < ·)) :
    (TextsAgree signs poll histo ↔ histo.below = histo.above ∧
      ∀ part ∈ histoParts histo,
        (join poll.key.val (normalLabel histo part).val).length ≤ opticsNameMaxLen - 1) ∧
    ∀ values, Recorded values histo →
      histo.below = .ofNat (values.countP fun v => v.lt (histo.buckets.getD 0 0)) ∧
      histo.above = .ofNat (values.countP fun v => !v.lt (histo.buckets.getD 0 0) &&
        v.ge (histo.buckets.getD (histo.buckets.length - 1) 0)) := by
  refine ⟨⟨fun h => ?_, fun h => ?_⟩, fun values hrecorded => hrecorded.ends⟩
  · exact ⟨h.below_eq hvalue hlen hinc, fun part hpart => h.fits hvalue hlen hpart⟩
  · exact textsAgree_of_fits hvalue hlen hinc h.1 h.2

/-! ### One value below -/

/-- A histogram with one bucket from 10 to 20. -/
def oneBucket (below above : UInt64) : OpticsHisto := ⟨[10, 20], below, above, fun _ => 4⟩

def histoPoll (histo : OpticsHisto) : OpticsPoll := ⟨nameH, nameA, nameC, .histo histo, 15, 5⟩

/-- One value below the first bound: the backend prints that it was above the last. -/
theorem texts_mixed : ¬ TextsAgree .clear (histoPoll (oneBucket 1 0)) (oneBucket 1 0) := by
  rintro ⟨text, members, reports, hwrite, hparse, -, -, -, -, hagree⟩
  rw [members_unique rfl ⟨by decide, by decide⟩ hwrite hparse] at hagree
  have hbelow := (hagree .below List.mem_cons_self).written
  rw [printed (by decide) List.mem_cons_self] at hbelow
  have hnum : (((0 : UInt64).toNat : ℚ)) = (1 : UInt64).toNat := Json.num.inj (List.cons.inj hbelow).1
  exact absurd (Nat.cast_inj.mp hnum) (by decide)

/-- One value below the first bound, one above the last, and four in between. -/
theorem texts_agree_one : TextsAgree .clear (histoPoll (oneBucket 1 1)) (oneBucket 1 1) := by
  refine (histo_agrees_iff .clear rfl (by decide) (by decide)).1.mpr ⟨rfl, fun part hpart => ?_⟩
  have hparts : histoParts (oneBucket 1 1) = [.below, .above, .counts ⟨0, by decide⟩] := rfl
  rw [hparts] at hpart
  rcases List.mem_cons.mp hpart with rfl | hpart
  · decide
  rcases List.mem_cons.mp hpart with rfl | hpart
  · decide
  rw [List.mem_singleton.mp hpart]
  show (join [99] (bucketWith underscore 10 20)).length ≤ 255
  simp [join, bucketWith, bucketText, formatU, decimal]

end Optics.RestHistos
