import Optics.RestHistos
import Optics.PollNames

/-! # Normalizing a record

`optics_poll_normalize` takes a polled record apart and calls a callback with one number after the
other, each under the key of the record with the name of the component behind it, until the callback
answers no.

* `opticsPollNormalize_spec`: what is called, for any callback;
* `reportKey_eq_iff`: a key is the name, a dot and the label unless it is cut at 255 bytes or the name
  is empty;
* `normalize_iff`: the components of a record have keys of their own exactly where all of them fit. -/

namespace Optics.Normalize

open Optics.Base Optics.Lenses Optics.LensSlots Optics.LensDist Optics.LensReads Optics.Doubles
open Optics.Utils.Keys Optics.Utils.Formats
open Optics.Polling Optics.PollNames Optics.BackendRest Optics.RestHistos

/-! ### The functions -/

def countLabel : CStr := ⟨countName, by decide⟩
def p50Label : CStr := ⟨p50Name, by decide⟩
def p90Label : CStr := ⟨p90Name, by decide⟩
def p99Label : CStr := ⟨p99Name, by decide⟩
def maxLabel : CStr := ⟨maxName, by decide⟩

/-- `lens_rescale` of a signed count. -/
def lensRescaleInt64 (fpu : Fpu) (poll : OpticsPoll) (n : UInt64) : Double :=
  fpu.div (.fin (doubleOfInt64 n)) (.fin (doubleOf (.ofNat poll.elapsed)))

section Functions
variable {β : Type} (fpu : Fpu) (cb : β → ℕ → CStr → Double → β × Bool)

/-- One report after the other: a push, the callback and a pop. -/
def reportAll (poll : OpticsPoll) : List (CStr × Double) → OpticsKey → β → Outcome (Bool × β)
  | [], _, ctx => .ok (true, ctx)
  | (label, v) :: reports, key, ctx => do
    let (key, old) ← opticsKeyPush key label
    let (ctx, ret) := cb ctx poll.ts key.str v
    let key ← opticsKeyPop key old
    if ret = false then .ok (false, ctx) else reportAll poll reports key ctx

/-- The reports of a distribution. -/
def distReports (poll : OpticsPoll) (dist : OpticsDist) : List (CStr × Double) :=
  [(countLabel, lensRescale fpu poll dist.n), (p50Label, dist.p50), (p90Label, dist.p90),
    (p99Label, dist.p99), (maxLabel, dist.max)]

/-- `lens_dist_normalize`. -/
def lensDistNormalize (poll : OpticsPoll) (ctx : β) : Outcome (Bool × β) :=
  match poll.value with
  | .dist dist => do
    let (key, _) ← opticsKeyPush OpticsKey.zero poll.key
    reportAll cb poll (distReports fpu poll dist) key ctx
  | _ => .error .undefined

/-- `lens_counter_normalize`, `lens_gauge_normalize` and `lens_quantile_normalize`. -/
def reportOne (poll : OpticsPoll) (v : Double) (ctx : β) : Outcome (Bool × β) :=
  let (ctx, ret) := cb ctx poll.ts poll.key v
  .ok (ret, ctx)

/-- `optics_poll_normalize`. -/
def opticsPollNormalize (poll : OpticsPoll) (ctx : β) : Outcome (Bool × β) :=
  match poll.value with
  | .counter n => reportOne cb poll (lensRescaleInt64 fpu poll n) ctx
  | .gauge bits => reportOne cb poll (punItod bits) ctx
  | .dist _ => lensDistNormalize fpu cb poll ctx
  | .histo _ => lensHistoNormalize (lensRescale fpu) cb poll ctx
  | .quantile quantile => reportOne cb poll quantile.sample ctx

end Functions

/-! ### What is called -/

/-- The calls for a record. -/
def calls (fpu : Fpu) (poll : OpticsPoll) : List (CStr × Double) :=
  match poll.value with
  | .counter n => [(poll.key, lensRescaleInt64 fpu poll n)]
  | .gauge bits => [(poll.key, punItod bits)]
  | .dist dist => (distReports fpu poll dist).map fun r => (reportKey poll r.1, r.2)
  | .histo histo => (histoParts histo).map fun part =>
      (reportKey poll (normalLabel histo part), lensRescale fpu poll (histo.get part))
  | .quantile quantile => [(poll.key, quantile.sample)]

/-- A number of a record, with its sign bit. -/
structure Report where
  poll : OpticsPoll
  key : CStr
  value : Double
  sign : Bool

/-- The sign bit of a number: a gauge has it among its bits, and those of other numbers, which a
`Double` need not have, are given by the number of the call. -/
def signOf (signs : ℕ → Bool) (poll : OpticsPoll) (i : ℕ) : Bool :=
  match poll.value with
  | .gauge bits => signBit bits
  | _ => signs i

/-- The numbers in calls for a record, from call `i` on. -/
def numbers (signs : ℕ → Bool) (poll : OpticsPoll) : List (CStr × Double) → ℕ → List Report
  | [], _ => []
  | (key, v) :: reports, i => ⟨poll, key, v, signOf signs poll i⟩ :: numbers signs poll reports (i + 1)

@[simp] theorem length_numbers (signs : ℕ → Bool) (poll : OpticsPoll)
    (reports : List (CStr × Double)) (i : ℕ) :
    (numbers signs poll reports i).length = reports.length := by
  induction reports generalizing i with
  | nil => rfl
  | cons report reports ih => rw [numbers, List.length_cons, List.length_cons, ih]

section Spec
variable {β : Type} (fpu : Fpu) (cb : β → ℕ → CStr → Double → β × Bool) {poll : OpticsPoll}

theorem reportAll_spec : ∀ (reports : List (CStr × Double)) {key : OpticsKey} (ctx : β),
    key.Holds (poll.key.val.take (opticsNameMaxLen - 1)) →
    reportAll cb poll reports key ctx =
      .ok (callAll cb poll.ts (reports.map fun r => (reportKey poll r.1, r.2)) ctx)
  | [], _, _, _ => rfl
  | (label, v) :: reports, key, ctx, hkey => by
    obtain ⟨key1, hpart, hkey1⟩ := reportPart_spec (fun _ _ => v) cb (.inl rfl) hkey label 0 ctx
    have hrest := reportAll_spec reports (cb ctx poll.ts (reportKey poll label) v).1 hkey1
    obtain ⟨⟨key2, old⟩, hpush, hpart⟩ := Base.bind_eq_ok.mp hpart
    obtain ⟨key3, hpop, heq⟩ := Base.bind_eq_ok.mp hpart
    simp only [Except.ok.injEq, Prod.mk.injEq] at heq
    obtain ⟨hret, rfl, hctx⟩ := heq
    rw [reportAll, hpush, ok_bind, List.map_cons, callAll]
    dsimp only
    rw [hpop, ok_bind, hret, hctx]
    exact goOn_eq hrest

/-- **What `optics_poll_normalize` does**: the calls of the record, until the callback answers no. -/
theorem opticsPollNormalize_spec (h : Walks poll.value) (ctx : β) :
    opticsPollNormalize fpu cb poll ctx = .ok (callAll cb poll.ts (calls fpu poll) ctx) := by
  have hone (v : Double) : reportOne cb poll v ctx =
      .ok (callAll cb poll.ts [(poll.key, v)] ctx) := by
    rw [reportOne, callAll]
    dsimp only
    rcases cb ctx poll.ts poll.key v with ⟨ctx1, _ | _⟩
    · rfl
    · rfl
  unfold opticsPollNormalize calls
  rcases hvalue : poll.value with n | bits | dist | histo | quantile
  · exact hone _
  · exact hone _
  · obtain ⟨key0, hpush, hkey0⟩ := opticsKeyPush_spec OpticsKey.holds_zero poll.key
    dsimp only
    rw [lensDistNormalize, hvalue]
    dsimp only
    rw [hpush, ok_bind]
    exact reportAll_spec cb (distReports fpu poll dist) ctx hkey0
  · rw [hvalue] at h
    exact lensHistoNormalize_spec (lensRescale fpu) cb h hvalue ctx
  · exact hone _

/-- A record that is normalized for a callback that never answers no can be walked. -/
theorem walks_of_normalized {ctx : β} {r : Bool × β}
    (hyes : ∀ ctx ts key v, (cb ctx ts key v).2 = true)
    (h : opticsPollNormalize fpu cb poll ctx = .ok r) : Walks poll.value := by
  unfold opticsPollNormalize at h
  rcases hvalue : poll.value with n | bits | dist | histo | quantile
  case histo =>
    rw [hvalue] at h
    have hwalks := lensHistoNormalize_walks (lensRescale fpu) cb hyes h
    rwa [hvalue] at hwalks
  all_goals trivial

end Spec

/-! ### The calls made -/

/-- A callback that keeps each call with its answer. -/
def logging {β : Type} (cb : β → ℕ → CStr → Double → β × Bool)
    (ctx : β × List ((CStr × Double) × Bool)) (ts : ℕ) (key : CStr) (v : Double) :
    (β × List ((CStr × Double) × Bool)) × Bool :=
  let (ctx', ret) := cb ctx.1 ts key v
  ((ctx', ctx.2 ++ [((key, v), ret)]), ret)

/-- The calls made of a list of calls: all of them, or those up to the first answered no. -/
structure Made (reports : List (CStr × Double)) (made : List ((CStr × Double) × Bool))
    (ret : Bool) : Prop where
  /-- a callback that answers no is not called again, and the result is no -/
  stops : ∀ before call after, made = before ++ (call, false) :: after → after = [] ∧ ret = false
  /-- a callback that always answers yes is called with everything -/
  all : (∀ call ∈ made, call.2 = true) → made.map Prod.fst = reports ∧ ret = true

theorem Made.cons {report : CStr × Double} {reports : List (CStr × Double)}
    {made : List ((CStr × Double) × Bool)} {ret : Bool} (h : Made reports made ret) :
    Made (report :: reports) ((report, true) :: made) ret where
  stops before call after hsplit := by
    obtain _ | ⟨first, before⟩ := before
    · cases hsplit
    · exact h.stops before call after (List.cons.inj hsplit).2
  all htrue := by
    obtain ⟨hall, hret⟩ := h.all fun call hcall => htrue call (List.mem_cons_of_mem _ hcall)
    exact ⟨by rw [List.map_cons, hall], hret⟩

theorem Made.stop (report : CStr × Double) (reports : List (CStr × Double)) :
    Made (report :: reports) [(report, false)] false where
  stops before call after hsplit := by
    obtain _ | ⟨first, before⟩ := before
    · exact ⟨(List.cons.inj hsplit).2.symm, rfl⟩
    · have hnil := congrArg List.length (List.cons.inj hsplit).2
      simp at hnil
  all htrue := by
    have hno := htrue (report, false) List.mem_cons_self
    cases hno

theorem Made.nil : Made [] [] true where
  stops before call after hsplit := by
    have hlen := congrArg List.length hsplit
    simp at hlen
  all _ := ⟨rfl, rfl⟩

/-- **Any callback**: the calls made are those of the list up to the first answered no. -/
theorem callAll_logging {β : Type} (cb : β → ℕ → CStr → Double → β × Bool) (ts : ℕ) :
    ∀ (reports : List (CStr × Double)) (ctx : β) (log : List ((CStr × Double) × Bool)),
      ∃ ctx' made ret, callAll (logging cb) ts reports (ctx, log) = (ret, ctx', log ++ made) ∧
        Made reports made ret ∧
        ∀ call ∈ made, ∃ ctx, call.2 = (cb ctx ts call.1.1 call.1.2).2
  | [], ctx, log => by
    refine ⟨ctx, [], true, ?_, Made.nil, fun call hcall => absurd hcall List.not_mem_nil⟩
    rw [List.append_nil]
    rfl
  | report :: reports, ctx, log => by
    rcases hcb : cb ctx ts report.1 report.2 with ⟨ctx1, ret1⟩
    have hlog : logging cb (ctx, log) ts report.1 report.2 =
        ((ctx1, log ++ [(report, ret1)]), ret1) := by
      rw [logging, hcb]
    have hanswer : ret1 = (cb ctx ts report.1 report.2).2 := by rw [hcb]
    rw [callAll, hlog]
    cases ret1 with
    | false =>
      refine ⟨ctx1, [(report, false)], false, rfl, Made.stop report reports, fun call hcall => ?_⟩
      cases List.mem_singleton.mp hcall
      exact ⟨ctx, hanswer⟩
    | true =>
      obtain ⟨ctx', made, ret, hrun, hmade, hanswers⟩ :=
        callAll_logging cb ts reports ctx1 (log ++ [(report, true)])
      refine ⟨ctx', (report, true) :: made, ret, ?_, hmade.cons, fun call hcall => ?_⟩
      · rw [List.append_cons log (report, true) made]
        exact hrun
      · rcases List.mem_cons.mp hcall with rfl | hcall
        · exact ⟨ctx, hanswer⟩
        · exact hanswers call hcall

/-! ### Keys -/

/-- The labels of the components of a record. -/
def labels : OpticsPollValue → List CStr
  | .dist _ => [countLabel, p50Label, p90Label, p99Label, maxLabel]
  | .histo histo => (histoParts histo).map (normalLabel histo)
  | _ => []

/-- A distribution, or a histogram with 2 to 9 increasing bounds. -/
def Composite : OpticsPollValue → Prop
  | .dist _ => True
  | .histo histo => (2 ≤ histo.buckets.length ∧
      histo.buckets.length ≤ opticsHistoBucketsMax + 1) ∧ histo.buckets.Pairwise (· < ·)
  | _ => False

theorem Composite.shaped {value : OpticsPollValue} (h : Composite value) : Shaped value := by
  cases value with
  | histo histo => exact h.1
  | _ => trivial

theorem Composite.labels_ne_nil {value : OpticsPollValue} (h : Composite value) :
    ∃ label, label ∈ labels value := by
  cases value with
  | dist dist => exact ⟨countLabel, List.mem_cons_self⟩
  | histo histo => exact ⟨normalLabel histo .below, List.mem_cons_self⟩
  | _ => exact h.elim

theorem distLabels_nodup : [countLabel, p50Label, p90Label, p99Label, maxLabel].Nodup := by decide

theorem labels_nodup {value : OpticsPollValue} (h : Composite value) : (labels value).Nodup := by
  cases value with
  | dist dist => exact distLabels_nodup
  | histo histo =>
    refine List.Nodup.map_on (fun p hp q hq heq => ?_) (histoParts_nodup histo)
    refine @labelWith_inj underscore rfl histo h.2 p q hp hq ?_
    rw [← normalLabel_val, ← normalLabel_val, heq]
  | _ => exact h.elim

theorem calls_keys (fpu : Fpu) {poll : OpticsPoll} (h : Composite poll.value) :
    (calls fpu poll).map (fun call => call.1.val) =
      (labels poll.value).map fun label => (reportKey poll label).val := by
  unfold calls labels
  rcases hvalue : poll.value with n | bits | dist | histo | quantile
  · rw [hvalue] at h
    exact h.elim
  · rw [hvalue] at h
    exact h.elim
  · rfl
  · rw [List.map_map, List.map_map]
    rfl
  · rw [hvalue] at h
    exact h.elim

/-- The name, a dot and the label. -/
def dotted (name label : CStr) : List UInt8 := name.val ++ dot :: label.val

/-- The name is not empty, and no key is longer than 255 bytes. -/
def Fits (name : CStr) (value : OpticsPollValue) : Prop :=
  name.val ≠ [] ∧
    ∀ label ∈ labels value, name.val.length + 1 + label.val.length ≤ opticsNameMaxLen - 1

/-- **A key** is the name, a dot and the label iff there is a name and the three fit. -/
theorem reportKey_eq_iff {name label : CStr} {poll : OpticsPoll}
    (hname : lensAllocName name = some poll.key) :
    (reportKey poll label).val = dotted name label ↔
      name.val ≠ [] ∧ name.val.length + 1 + label.val.length ≤ opticsNameMaxLen - 1 := by
  have hkey : poll.key = name.take opticsNameMaxLen := by
    unfold lensAllocName at hname
    split_ifs at hname
    exact (Option.some.inj hname).symm
  have hdotted : (dotted name label).length = name.val.length + 1 + label.val.length := by
    rw [dotted, List.length_append, List.length_cons]
    omega
  constructor
  · intro h
    have hlen : (dotted name label).length ≤ opticsNameMaxLen - 1 :=
      h ▸ List.length_take_le _ _
    refine ⟨fun hnil => ?_, by omega⟩
    -- without a name the dot is missing
    have hshort := congrArg List.length h
    rw [hdotted, hnil] at hshort
    have hle : (reportKey poll label).val.length ≤ label.val.length := by
      have hjoin : join poll.key.val label.val = label.val := by
        rw [hkey, CStr.take_val, hnil, List.take_nil]
        rfl
      change ((join poll.key.val label.val).take _).length ≤ _
      rw [hjoin]
      exact List.length_take_le' _ _
    rw [List.length_nil] at hshort
    omega
  · rintro ⟨hne, hfits⟩
    have hlen : name.val.length ≤ opticsNameMaxLen := by omega
    have hjoin : join poll.key.val label.val = dotted name label := by
      rw [hkey, CStr.take_of_length_le hlen]
      exact if_neg hne
    rw [reportKey_val (by rw [hjoin]; omega), hjoin]

/-- Normalizing a record calls any callback until it answers no, and one that answers yes once for
each component, under the name, a dot and the label, with keys that are apart. -/
def Normalizes (name : CStr) (poll : OpticsPoll) : Prop :=
  ∀ (fpu : Fpu) (β : Type) (cb : β → ℕ → CStr → Double → β × Bool) (ctx : β),
    ∃ ctx' made ret, opticsPollNormalize fpu (logging cb) poll (ctx, []) = .ok (ret, ctx', made) ∧
      (∀ before call after, made = before ++ (call, false) :: after → after = [] ∧ ret = false) ∧
      ((∀ call ∈ made, call.2 = true) →
        made.map (fun call => call.1.1.val) = (labels poll.value).map (dotted name) ∧
        (made.map fun call => call.1.1.val).Nodup ∧ ret = true)

theorem dotted_inj {name label label' : CStr} (h : dotted name label = dotted name label') :
    label = label' :=
  Subtype.ext (List.cons.inj (List.append_cancel_left h)).2

section Keys
variable {name : CStr} {poll : OpticsPoll}

/-- A logging callback is called with the calls of the record, up to the first answered no. -/
theorem opticsPollNormalize_logging (hvalue : Composite poll.value) (fpu : Fpu) {β : Type}
    (cb : β → ℕ → CStr → Double → β × Bool) (ctx : β) :
    ∃ ctx' made ret, opticsPollNormalize fpu (logging cb) poll (ctx, []) = .ok (ret, ctx', made) ∧
      Made (calls fpu poll) made ret ∧
      ∀ call ∈ made, ∃ ctx, call.2 = (cb ctx poll.ts call.1.1 call.1.2).2 := by
  obtain ⟨ctx', made, ret, hcalls, hmade⟩ := callAll_logging cb poll.ts (calls fpu poll) ctx []
  refine ⟨ctx', made, ret, ?_, hmade⟩
  rw [opticsPollNormalize_spec fpu (logging cb) (walks_of_shaped hvalue.shaped), hcalls, List.nil_append]

theorem Made.keys (hvalue : Composite poll.value) {fpu : Fpu}
    {made : List ((CStr × Double) × Bool)} {ret : Bool} (hmade : Made (calls fpu poll) made ret)
    (htrue : ∀ call ∈ made, call.2 = true) : made.map (fun call => call.1.1.val) =
      (labels poll.value).map fun label => (reportKey poll label).val := by
  rw [← calls_keys fpu hvalue, ← (hmade.all htrue).1, List.map_map]
  rfl

/-- Where normalizing gives each component its key, no key is cut. -/
theorem Normalizes.reportKey_eq (h : Normalizes name poll) (hvalue : Composite poll.value) :
    ∀ label ∈ labels poll.value, (reportKey poll label).val = dotted name label := by
  -- the callback that always answers yes
  obtain ⟨ctx', made, ret, hok, -, hall⟩ := h rational Unit (fun ctx _ _ _ => (ctx, true)) ()
  obtain ⟨ctx1, made1, ret1, hok1, hmade, hanswers⟩ :=
    opticsPollNormalize_logging hvalue rational (fun ctx _ _ _ => (ctx, true)) ()
  cases hok.symm.trans hok1
  have htrue : ∀ call ∈ made, call.2 = true := fun call hcall => (hanswers call hcall).choose_spec
  exact List.map_inj_left.mp ((hmade.keys hvalue htrue).symm.trans (hall htrue).1)

end Keys

/-- **Normalizing gives each component a key of its own iff all keys fit.** -/
theorem normalize_iff (name : CStr) (poll : OpticsPoll) (hname : lensAllocName name = some poll.key)
    (hvalue : Composite poll.value) : Normalizes name poll ↔ Fits name poll.value := by
  constructor
  · intro h
    have hfits (label : CStr) (hlabel : label ∈ labels poll.value) :=
      (reportKey_eq_iff hname).mp (h.reportKey_eq hvalue label hlabel)
    obtain ⟨label, hlabel⟩ := hvalue.labels_ne_nil
    exact ⟨(hfits label hlabel).1, fun label hlabel => (hfits label hlabel).2⟩
  · rintro ⟨hne, hfits⟩ fpu β cb ctx
    obtain ⟨ctx', made, ret, hok, hmade, -⟩ := opticsPollNormalize_logging hvalue fpu cb ctx
    refine ⟨ctx', made, ret, hok, hmade.stops, fun htrue => ?_⟩
    have heq : made.map (fun call => call.1.1.val) = (labels poll.value).map (dotted name) := by
      rw [hmade.keys hvalue htrue]
      exact List.map_congr_left fun label hlabel =>
        (reportKey_eq_iff hname).mpr ⟨hne, hfits label hlabel⟩
    refine ⟨heq, ?_, (hmade.all htrue).2⟩
    rw [heq]
    exact (labels_nodup hvalue).map fun _ _ => dotted_inj

/-- The record of a distribution of three samples. -/
def distPoll (key : CStr) : OpticsPoll :=
  ⟨nameA, nameA, key, .dist ⟨3, .fin 1, .fin 2, .fin 2, .fin 2, []⟩, 15, 5⟩

theorem normalize_iff_dist :
    Normalizes nameA (distPoll nameA) ↔ Fits nameA (distPoll nameA).value :=
  normalize_iff nameA (distPoll nameA) rfl trivial

/-- **A name of 254 bytes** is accepted, and all five components of its record have one key. -/
theorem normalize_long : lensAllocName (longName 97 (by decide)) = some (longName 97 (by decide)) ∧
    (∀ label ∈ labels (distPoll (longName 97 (by decide))).value,
      (reportKey (distPoll (longName 97 (by decide))) label).val =
        (longName 97 (by decide)).val ++ [dot]) ∧
    ¬ Normalizes (longName 97 (by decide)) (distPoll (longName 97 (by decide))) := by
  have hkey (label : CStr) : (reportKey (distPoll (longName 97 (by decide))) label).val =
      (longName 97 (by decide)).val ++ [dot] := by
    change (join (longName 97 (by decide)).val label.val).take (254 + 1) = _
    have hlen := length_longName 97 (by decide)
    have hne : (longName 97 (by decide)).val ≠ [] := fun hnil => by
      rw [hnil] at hlen
      cases hlen
    rw [join, if_neg hne, List.append_cons, List.take_left']
    rw [List.length_append, hlen]
    rfl
  refine ⟨lensAllocName_long 97 (by decide), fun label _ => hkey label, fun h => ?_⟩
  have hcount := h.reportKey_eq trivial countLabel List.mem_cons_self
  rw [hkey] at hcount
  have hnil := (List.cons.inj (List.append_cancel_left hcount)).2
  cases hnil

end Optics.Normalize
