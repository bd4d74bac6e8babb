import Optics.CarbonRead
import Optics.Pollers

/-! # The backends of the library, side by side

Standard output, carbon and REST as backends of one poller. `dumps_agree`: whatever the network does,
every run of polls that returns has reached all of them; what has been printed, what has been sent and
what is shown are made of the same records, in the same order, and no backend disturbs another. Polls
of lenses with the bounds that `lens_histo_alloc` accepts return. -/

namespace Optics.PollerDumps

open Optics.Base Optics.Lenses Optics.LensSlots Optics.Doubles Optics.Utils.Random Optics.Lib.Cells
open Optics.LensReads Optics.Lib.Decimals Optics.Utils.Formats
open Optics.Utils.Htables Optics.Utils.HtableGrowth
open Optics.Polling Optics.PollTotals Optics.PollReturns Optics.BackendRest Optics.RestHistos
open Optics.RestPolls Optics.Normalize Optics.Pollers
open Optics.BackendCarbon (Client Sent carbonDump carbonDumpNormalized)
open Optics.CarbonRead (dumpAll reportsOf)

/-! ### The backends -/

/-- `{host='` -/
def hostText : List UInt8 := [123, 104, 111, 115, 116, 61, 39]

/-- `'} = ` -/
def valueText : List UInt8 := [39, 125, 32, 61, 32]

/-- The line on standard output for a number. -/
def stdoutLine (report : Report) : List UInt8 :=
  91 :: (decimal report.poll.ts ++ 93 :: 32 :: (report.poll.regionPrefix.val ++ 46 ::
    (report.key.val ++ (hostText ++ (report.poll.host.val ++ (valueText ++
      (formatG report.sign report.value ++ [10])))))))

/-- `stdout_dump_normalized`, with what has been printed and how many lines that are. -/
def stdoutDumpNormalized (signs : ℕ → Bool) (poll : OpticsPoll) (out : List UInt8 × ℕ) (ts : ℕ)
    (key : CStr) (v : Double) : (List UInt8 × ℕ) × Bool :=
  ((out.1 ++ 91 :: (decimal ts ++ 93 :: 32 :: (poll.regionPrefix.val ++ 46 :: (key.val ++
    (hostText ++ (poll.host.val ++ (valueText ++
      (formatG (signOf signs poll out.2) v ++ [10]))))))), out.2 + 1), true)

variable {δ : Type}

section Callbacks
variable (signs : ℕ → Bool) (fpu : Fpu) (net : ℕ → ℤ × Sent)

/-- `stdout_dump`. -/
def stdoutDump : Context δ → Event → Outcome (Context δ)
  | .output text i, (.pollMetric, some poll) => do
    let (_, text, i) ← opticsPollNormalize fpu (stdoutDumpNormalized signs poll) poll (text, i)
    .ok (.output text i)
  | .output _ _, (.pollMetric, none) => .error .segv
  | .output text i, _ => .ok (.output text i)
  | _, _ => .error .undefined

/-- `carbon_dump`. -/
def carbonCallback : Context δ → Event → Outcome (Context δ)
  | .carbon client sent, (.pollMetric, some poll) => do
    let (client, sent) ← carbonDump signs fpu net poll client sent
    .ok (.carbon client sent)
  | .carbon _ _, (.pollMetric, none) => .error .segv
  | .carbon client sent, _ => .ok (.carbon client sent)
  | _, _ => .error .undefined

/-- `rest_dump`. -/
def restCallback : Context δ → Event → Outcome (Context δ)
  | .rest rest, (type, poll) => do
    let rest ← restDump rest type poll
    .ok (.rest rest)
  | _, _ => .error .undefined

end Callbacks

/-- A backend of the library: a client has the outcomes of its system calls, and those but standard
output have a context of their own. -/
inductive Dump where
  | stdout
  | carbon (ctx : ℕ) (net : ℕ → ℤ × Sent)
  | rest (ctx : ℕ)

/-- The context. -/
def Dump.ctx : Dump → ℕ
  | .stdout => 0
  | .carbon ctx _ => ctx
  | .rest ctx => ctx

/-- The backend that is added. -/
def Dump.backend (signs : ℕ → Bool) (fpu : Fpu) : Dump → Backend δ
  | .stdout => ⟨0, stdoutDump signs fpu, none⟩
  | .carbon ctx net => ⟨ctx, carbonCallback signs fpu net, some fun _ => .ok ()⟩
  | .rest ctx => ⟨ctx, restCallback, some fun _ => .ok ()⟩

/-- The context as it is allocated; nothing has been printed yet. -/
def Dump.context : Dump → Context δ
  | .stdout => .output [] 0
  | .carbon _ _ => .carbon Client.start 0
  | .rest _ => .rest Rest.zero

/-- `optics_dump_stdout`, `optics_dump_carbon` and `optics_dump_rest`: whether there was room for
the backend is not looked at. -/
def opticsDump {σ : Type} (signs : ℕ → Bool) (fpu : Fpu) (s : PollerState δ σ) (dump : Dump) :
    PollerState δ σ :=
  ⟨(opticsPollerBackend s.poller (dump.backend signs fpu)).2,
    Function.update s.memory dump.ctx (some dump.context), s.gen⟩

/-! ### What the backends make of the records -/

/-- The records among events. -/
def recordsOf (events : List Event) : List OpticsPoll := events.filterMap Prod.snd

/-- The records of the last poll that told anything, `last` before the first. -/
def lastRecords (last : List OpticsPoll) (outs : List (Bool × List Event)) : List OpticsPoll :=
  outs.foldl (fun last out => if out.2 = [] then last else recordsOf out.2) last

/-- A table shows records: one entry for each, by ascending keys, and none is being filled. -/
structure Shown (records : List OpticsPoll) (rest : Rest) : Prop where
  build : rest.build = none
  perm : (entries rest.current).Perm (records.map metricOf)
  sorted : (entries rest.current).Pairwise fun a b => metricsCmp a b ≤ 0

/-- Standard output has the lines for the numbers of the records. -/
def Printed (signs : ℕ → Bool) (fpu : Fpu) (records : List OpticsPoll) (ctx : Context δ) : Prop :=
  let reports := reportsOf signs fpu records 0
  ctx = .output (reports.flatMap stdoutLine) reports.length

/-- The client is as sending the records leaves it. -/
def SentAll (signs : ℕ → Bool) (fpu : Fpu) (net : ℕ → ℤ × Sent) (records : List OpticsPoll)
    (ctx : Context δ) : Prop :=
  ∃ client sent, dumpAll signs fpu net records Client.start 0 = .ok (client, sent) ∧
    ctx = .carbon client sent

/-- What a backend is left with by polls. -/
def Dumped (signs : ℕ → Bool) (fpu : Fpu) (outs : List (Bool × List Event)) (dump : Dump)
    (ctx : Context δ) : Prop :=
  match dump with
  | .stdout => Printed signs fpu (recordsOf (outs.flatMap Prod.snd)) ctx
  | .carbon _ net => SentAll signs fpu net (recordsOf (outs.flatMap Prod.snd)) ctx
  | .rest _ => ∃ rest, ctx = .rest rest ∧ Shown (lastRecords [] outs) rest

/-! ### Records of histograms -/

/-- A lens for a histogram has 2 to 9 bounds. -/
def LensShaped : LensData → Prop
  | .histo _ buckets => 2 ≤ buckets.length ∧ buckets.length ≤ opticsHistoBucketsMax + 1
  | _ => True

section Shapes
variable {σ : Type} {fpu : Fpu} {rng : Rng σ}

/-- A read of a shaped lens leaves a shaped record, where the record was shaped or has just been made
for the lens. -/
theorem reads_shaped {v : Visit} {before after : OpticsPollValue}
    (hread : Reads fpu rng v before after) (hlens : LensShaped v.before.data)
    (h : Shaped before ∨ before = .zero v.before.data.type) : Shaped after := by
  obtain ⟨ret, s, s', hread⟩ := hread
  generalize v.after.data = data' at hread
  cases before with
  | counter n =>
    cases hread
    trivial
  | gauge bits =>
    cases hread
    trivial
  | dist dist =>
    obtain ⟨r, -, hread⟩ := Base.bind_eq_ok.mp hread
    cases hread
    trivial
  | quantile quantile =>
    obtain ⟨r, -, hread⟩ := Base.bind_eq_ok.mp hread
    cases hread
    trivial
  | histo histo =>
    rw [LensReads.readValue] at hread
    have hother (hd : ∀ epochs buckets, v.before.data ≠ .histo epochs buckets) :
        Shaped (.histo histo) := by
      refine h.resolve_right fun hzero => ?_
      rcases hdata : v.before.data with c | c | c | ⟨epochs, buckets⟩ | c
      all_goals rw [hdata] at hzero
      case histo => exact hd epochs buckets hdata
      all_goals simp [OpticsPollValue.zero, LensData.type] at hzero
    rcases hdata : v.before.data with c | c | c | ⟨epochs, buckets⟩ | c
    case histo =>
      rw [hdata] at hread hlens
      dsimp only at hread
      rw [lensHistoRead] at hread
      dsimp only at hread
      split_ifs at hread with hnone hsame
      · cases hread
        rw [Shaped, drainHisto_buckets]
        exact hlens
      · cases hread
        refine h.resolve_right fun hzero => hnone ?_
        rw [hdata] at hzero
        cases hzero
        rfl
      · cases hread
        rw [Shaped, drainHisto_buckets, not_not.mp hsame]
        exact hlens
    all_goals
      rw [hdata] at hread
      cases hread
      exact hother fun epochs buckets => by simp [hdata]

theorem merged_shaped {g : List Visit} {poll : OpticsPoll} (h : Merged fpu rng g poll)
    (hg : ∀ v ∈ g, LensShaped v.before.data) : Shaped poll.value := by
  induction h with
  | first hread => exact reads_shaped hread (hg _ List.mem_cons_self) (.inr rfl)
  | next hmerged hread ih =>
    refine reads_shaped hread (hg _ (by simp)) (.inl (ih fun v hv => hg v ?_))
    exact List.mem_append_left _ hv

/-- All lenses of a poll are shaped. -/
def WorksShaped (call : PollCall) : Prop := ∀ w ∈ callWorks call, LensShaped w.2.data

theorem Records.shaped {call : PollCall} {polls : List OpticsPoll}
    (h : Records fpu rng call polls) (hshaped : WorksShaped call) :
    ∀ poll ∈ polls, Shaped poll.value := by
  obtain ⟨out, -, hmerged⟩ := h.values
  intro poll hpoll
  refine merged_shaped (hmerged poll hpoll) fun v hv => ?_
  obtain ⟨i, hi, hget⟩ := List.mem_iff_getElem.mp (List.mem_filter.mp hv).1
  simp only [visits, List.getElem_zipWith] at hget
  rw [← hget]
  exact hshaped _ (List.getElem_mem _)

end Shapes

/-! ### What a poll tells -/

/-- What a poll tells: nothing, or its records. -/
def Batch (events : List Event) : Prop := events = [] ∨ ∃ polls, events = eventsOf polls

theorem recordsOf_eventsOf (polls : List OpticsPoll) : recordsOf (eventsOf polls) = polls := by
  simp [recordsOf, eventsOf, List.filterMap_map]

theorem told_batch {σ : Type} {fpu : Fpu} {rng : Rng σ} {call : PollCall}
    {out : Bool × List Event} (h : Told fpu rng call out) : Batch out.2 := by
  cases h with
  | nothing hopen => exact .inl rfl
  | records hopen hrecords => exact .inr ⟨_, rfl⟩

theorem told_shaped {σ : Type} {fpu : Fpu} {rng : Rng σ} {call : PollCall}
    {out : Bool × List Event} (h : Told fpu rng call out) (hshaped : WorksShaped call) :
    ∀ poll ∈ recordsOf out.2, Shaped poll.value := by
  cases h with
  | nothing hopen => simp [recordsOf]
  | records hopen hrecords =>
    rw [recordsOf_eventsOf]
    exact Records.shaped hrecords hshaped

/-- An event of a poll has a record if it is one. -/
inductive Proper : Event → Prop
  | begins : Proper (.pollBegin, none)
  | metric (poll : OpticsPoll) : Proper (.pollMetric, some poll)
  | done : Proper (.pollDone, none)

theorem Batch.proper {events : List Event} (h : Batch events) : ∀ event ∈ events, Proper event := by
  rcases h with rfl | ⟨polls, rfl⟩
  · simp
  · intro event hevent
    simp only [eventsOf, List.mem_append, List.mem_cons, List.mem_map, List.not_mem_nil,
      or_false] at hevent
    rcases hevent with (rfl | ⟨poll, -, rfl⟩) | rfl
    · exact .begins
    · exact .metric poll
    · exact .done

theorem proper_flatMap {outs : List (Bool × List Event)} (h : ∀ out ∈ outs, Batch out.2) :
    ∀ event ∈ outs.flatMap Prod.snd, Proper event := by
  intro event hevent
  obtain ⟨out, hout, hevent⟩ := List.mem_flatMap.mp hevent
  exact (h out hout).proper event hevent

/-! ### Backends that collect -/

/-- A backend that only looks at records: `R` relates those it was told to what it has made of
them. -/
structure Collects (backend : Backend δ) (R : List OpticsPoll → Context δ → Prop) : Prop where
  begins : ∀ records ctx, R records ctx → backend.cb ctx (.pollBegin, none) = .ok ctx
  metric : ∀ records ctx ctx' poll, R records ctx →
    backend.cb ctx (.pollMetric, some poll) = .ok ctx' → R (records ++ [poll]) ctx'
  returns : ∀ records ctx poll, R records ctx → Shaped poll.value →
    ∃ ctx', backend.cb ctx (.pollMetric, some poll) = .ok ctx'
  done : ∀ records ctx, R records ctx → backend.cb ctx (.pollDone, none) = .ok ctx

section Collect
variable {backend : Backend δ} {R : List OpticsPoll → Context δ → Prop}

theorem runCell_call (events : List Event) {event : Event} {ctx ctx' : Context δ}
    (h : backend.cb ctx event = .ok ctx') :
    runCell ((event :: events).map backend.call) (some ctx) =
      runCell (events.map backend.call) (some ctx') := by
  rw [List.map_cons, runCell, Backend.call, h]
  rfl

/-- **A backend that collects** has collected the records of events it returned from. -/
theorem Collects.collected (h : Collects backend R) : ∀ {events : List Event}
    {records : List OpticsPoll} {ctx : Context δ} {cell : Option (Context δ)},
    (∀ event ∈ events, Proper event) → R records ctx →
    runCell (events.map backend.call) (some ctx) = .ok cell →
    ∃ ctx', cell = some ctx' ∧ R (records ++ recordsOf events) ctx'
  | [], records, ctx, cell, _, hctx, hrun => by
    cases hrun
    exact ⟨ctx, rfl, by rwa [recordsOf, List.filterMap_nil, List.append_nil]⟩
  | event :: events, records, ctx, cell, hproper, hctx, hrun => by
    rw [List.forall_mem_cons] at hproper
    rcases hproper.1 with _ | poll | _
    · rw [runCell_call events (h.begins records ctx hctx)] at hrun
      obtain ⟨ctx', hcell, hctx'⟩ := h.collected hproper.2 hctx hrun
      exact ⟨ctx', hcell, hctx'⟩
    · obtain ⟨cell1, hcall, hrest⟩ := Base.bind_eq_ok.mp hrun
      obtain ⟨ctx1, hcb, hcell⟩ := Base.bind_eq_ok.mp hcall
      cases hcell
      obtain ⟨ctx', hcell, hctx'⟩ :=
        h.collected hproper.2 (h.metric records ctx ctx1 poll hctx hcb) hrest
      exact ⟨ctx', hcell, by rwa [List.append_assoc] at hctx'⟩
    · rw [runCell_call events (h.done records ctx hctx)] at hrun
      obtain ⟨ctx', hcell, hctx'⟩ := h.collected hproper.2 hctx hrun
      exact ⟨ctx', hcell, hctx'⟩

/-- A backend that collects returns from shaped records. -/
theorem Collects.run_returns (h : Collects backend R) : ∀ {events : List Event}
    {records : List OpticsPoll} {ctx : Context δ}, (∀ event ∈ events, Proper event) →
    (∀ poll ∈ recordsOf events, Shaped poll.value) → R records ctx →
    ∃ cell, runCell (events.map backend.call) (some ctx) = .ok cell
  | [], records, ctx, _, _, _ => ⟨some ctx, rfl⟩
  | event :: events, records, ctx, hproper, hshaped, hctx => by
    rw [List.forall_mem_cons] at hproper
    rcases hproper.1 with _ | poll | _
    · rw [runCell_call events (h.begins records ctx hctx)]
      exact h.run_returns hproper.2 hshaped hctx
    · have hpolls : ∀ p ∈ poll :: recordsOf events, Shaped p.value := hshaped
      rw [List.forall_mem_cons] at hpolls
      obtain ⟨ctx1, hcb⟩ := h.returns records ctx poll hctx hpolls.1
      rw [runCell_call events hcb]
      exact h.run_returns hproper.2 hpolls.2 (h.metric records ctx ctx1 poll hctx hcb)
    · rw [runCell_call events (h.done records ctx hctx)]
      exact h.run_returns hproper.2 hshaped hctx

end Collect

section Backends
variable {signs : ℕ → Bool} {fpu : Fpu} {net : ℕ → ℤ × Sent}

theorem reportsOf_snoc (records : List OpticsPoll) (poll : OpticsPoll) (i : ℕ) :
    reportsOf signs fpu (records ++ [poll]) i = reportsOf signs fpu records i ++
      numbers signs poll (calls fpu poll) (i + (reportsOf signs fpu records i).length) := by
  induction records generalizing i with
  | nil => simp [reportsOf]
  | cons first records ih =>
    rw [List.cons_append, reportsOf, reportsOf, ih, List.append_assoc, List.length_append,
      length_numbers, Nat.add_assoc]

/-! ### Standard output -/

theorem callAll_stdout (poll : OpticsPoll) (reports : List (CStr × Double)) (text : List UInt8)
    (i : ℕ) : callAll (stdoutDumpNormalized signs poll) poll.ts reports (text, i) =
      (true, text ++ (numbers signs poll reports i).flatMap stdoutLine, i + reports.length) := by
  induction reports generalizing text i with
  | nil => simp [callAll, numbers]
  | cons report reports ih =>
    simp [callAll, stdoutDumpNormalized, ih, numbers, stdoutLine]
    omega

theorem printed_nil (signs : ℕ → Bool) (fpu : Fpu) :
    Printed (δ := δ) signs fpu [] (.output [] 0) := rfl

theorem stdoutDump_metric {poll : OpticsPoll} (h : Walks poll.value) (text : List UInt8) (i : ℕ) :
    stdoutDump (δ := δ) signs fpu (.output text i) (.pollMetric, some poll) =
      .ok (.output (text ++ (numbers signs poll (calls fpu poll) i).flatMap stdoutLine)
        (i + (calls fpu poll).length)) := by
  simp only [stdoutDump, opticsPollNormalize_spec fpu _ h, callAll_stdout]
  rfl

theorem stdout_collects :
    Collects (δ := δ) (Dump.stdout.backend signs fpu) (Printed signs fpu) where
  begins records ctx h := by
    rw [h]
    rfl
  metric records ctx ctx' poll h hcb := by
    rw [Printed] at h
    rw [h] at hcb
    obtain ⟨r, hnormal, -⟩ := Base.bind_eq_ok.mp hcb
    have hwalks := walks_of_normalized fpu _ (fun _ _ _ _ => rfl) hnormal
    cases hcb.symm.trans (stdoutDump_metric hwalks _ _)
    rw [Printed, reportsOf_snoc, Nat.zero_add, List.flatMap_append, List.length_append,
      length_numbers]
  returns records ctx poll h hshaped := by
    rw [h]
    exact ⟨_, stdoutDump_metric (walks_of_shaped hshaped) _ _⟩
  done records ctx h := by
    rw [h]
    rfl

/-! ### Carbon -/

theorem dumpAll_snoc {records : List OpticsPoll} {poll : OpticsPoll} {s s1 : Client} {i i1 : ℕ}
    (h : dumpAll signs fpu net records s i = .ok (s1, i1)) :
    dumpAll signs fpu net (records ++ [poll]) s i = carbonDump signs fpu net poll s1 i1 := by
  induction records generalizing s i with
  | nil =>
    cases h
    rw [List.nil_append, dumpAll]
    rcases carbonDump signs fpu net poll s1 i1 with e | ⟨s2, i2⟩
    · rfl
    · rfl
  | cons first records ih =>
    obtain ⟨⟨s2, i2⟩, hfirst, h⟩ := Base.bind_eq_ok.mp h
    rw [List.cons_append, dumpAll, hfirst]
    exact ih h

theorem sentAll_nil (signs : ℕ → Bool) (fpu : Fpu) (net : ℕ → ℤ × Sent) :
    SentAll (δ := δ) signs fpu net [] (.carbon Client.start 0) := ⟨_, _, rfl, rfl⟩

theorem carbon_collects (ctx : ℕ) :
    Collects (δ := δ) ((Dump.carbon ctx net).backend signs fpu) (SentAll signs fpu net) where
  begins records ctx h := by
    obtain ⟨client, sent, -, rfl⟩ := h
    rfl
  metric records ctx ctx' poll h hcb := by
    obtain ⟨client, sent, hdump, rfl⟩ := h
    obtain ⟨⟨client', sent'⟩, hpoll, hcb⟩ := Base.bind_eq_ok.mp hcb
    cases hcb
    exact ⟨client', sent', (dumpAll_snoc hdump).trans hpoll, rfl⟩
  returns records ctx poll h hshaped := by
    obtain ⟨client, sent, -, rfl⟩ := h
    obtain ⟨client', -, hpoll⟩ :=
      BackendCarbon.carbonDump_eq signs fpu net (walks_of_shaped hshaped) client sent
    exact ⟨_, congrArg (· >>= _) hpoll⟩
  done records ctx h := by
    obtain ⟨client, sent, -, rfl⟩ := h
    rfl

/-! ### REST -/

theorem runCell_recordMetrics (ctx : ℕ) (events : List Event) :
    ∀ {polls : List OpticsPoll} {rest rest' : Rest}, recordMetrics polls rest = .ok rest' →
      runCell ((polls.map (fun poll => (OpticsPollType.pollMetric, some poll)) ++ events).map
        ((Dump.rest ctx).backend (δ := δ) signs fpu).call) (some (.rest rest)) =
      runCell (events.map ((Dump.rest ctx).backend signs fpu).call) (some (.rest rest'))
  | [], rest, rest', h => by
    cases h
    rfl
  | poll :: polls, rest, rest', h => by
    obtain ⟨rest1, hdump, h⟩ := Base.bind_eq_ok.mp h
    have hcb : ((Dump.rest ctx).backend (δ := δ) signs fpu).cb (.rest rest) (.pollMetric, some poll) =
        .ok (.rest rest1) := by
      simp only [Dump.backend, restCallback, hdump]
      rfl
    rw [List.map_cons, List.cons_append, runCell_call _ hcb]
    exact runCell_recordMetrics ctx events h

variable (signs fpu) in
/-- **The REST backend shows the last poll that told anything.** -/
theorem rest_polls (ctx : ℕ) : ∀ {outs : List (Bool × List Event)} {last : List OpticsPoll}
    {rest : Rest}, Shown last rest → (∀ out ∈ outs, Batch out.2) → ∃ rest',
      runCell ((outs.flatMap Prod.snd).map ((Dump.rest ctx).backend (δ := δ) signs fpu).call)
        (some (.rest rest)) = .ok (some (.rest rest')) ∧ Shown (lastRecords last outs) rest'
  | [], last, rest, h, _ => ⟨rest, rfl, h⟩
  | out :: outs, last, rest, h, hbatch => by
    rw [List.forall_mem_cons] at hbatch
    rw [List.flatMap_cons, lastRecords, List.foldl_cons, ← lastRecords]
    rcases hbatch.1 with hnil | ⟨polls, hout⟩
    · rw [if_pos hnil, hnil]
      exact rest_polls ctx h hbatch.2
    · rw [hout, if_neg (by simp [eventsOf]), recordsOf_eventsOf]
      obtain ⟨rest1, hrecord, hbuild, hperm, hsorted⟩ := recordPoll_spec polls rest
      obtain ⟨rest2, hbegin, hrecord⟩ := Base.bind_eq_ok.mp hrecord
      obtain ⟨rest3, hmetrics, hdone⟩ := Base.bind_eq_ok.mp hrecord
      obtain ⟨rest', hrun, hshown⟩ := rest_polls ctx ⟨hbuild, hperm, hsorted⟩ hbatch.2
      refine ⟨rest', ?_, hshown⟩
      have hcb {rest rest' : Rest} {type : OpticsPollType} {poll : Option OpticsPoll}
          (h : restDump rest type poll = .ok rest') :
          ((Dump.rest ctx).backend (δ := δ) signs fpu).cb (.rest rest) (type, poll) =
            .ok (.rest rest') := by
        simp only [Dump.backend, restCallback, h]
        rfl
      rw [eventsOf, List.append_assoc, List.cons_append, runCell_call _ (hcb hbegin),
        List.singleton_append, runCell_recordMetrics ctx _ hmetrics, runCell_call _ (hcb hdone)]
      exact hrun

variable (signs fpu) in
/-- **A backend of the library** that has returned from polls is left with what they told, if its
context was as it is allocated. -/
theorem dump_dumped (dump : Dump) {outs : List (Bool × List Event)}
    (hbatch : ∀ out ∈ outs, Batch out.2) {cell : Option (Context δ)}
    (hrun : runCell ((outs.flatMap Prod.snd).map (dump.backend signs fpu).call)
      (some dump.context) = .ok cell) :
    ∃ ctx, cell = some ctx ∧ Dumped signs fpu outs dump ctx := by
  have hproper := proper_flatMap hbatch
  cases dump with
  | stdout => exact stdout_collects.collected hproper (printed_nil signs fpu) hrun
  | carbon ctx net => exact (carbon_collects ctx).collected hproper (sentAll_nil signs fpu net) hrun
  | rest ctx =>
    obtain ⟨rest', hrun', hshown⟩ := rest_polls (δ := δ) signs fpu ctx
      (show Shown [] Rest.zero from ⟨rfl, .nil, .nil⟩) hbatch
    cases hrun.symm.trans hrun'
    exact ⟨_, rfl, rest', rfl, hshown⟩

variable (signs fpu) in
theorem dump_returns (dump : Dump) {outs : List (Bool × List Event)}
    (hbatch : ∀ out ∈ outs, Batch out.2)
    (hshaped : ∀ poll ∈ recordsOf (outs.flatMap Prod.snd), Shaped poll.value) :
    ∃ cell : Option (Context δ), runCell ((outs.flatMap Prod.snd).map
      (dump.backend signs fpu).call) (some dump.context) = .ok cell := by
  have hproper := proper_flatMap hbatch
  cases dump with
  | stdout => exact stdout_collects.run_returns hproper hshaped (printed_nil signs fpu)
  | carbon ctx net =>
    exact (carbon_collects ctx).run_returns hproper hshaped (sentAll_nil signs fpu net)
  | rest ctx =>
    obtain ⟨rest', hrun, -⟩ := rest_polls (δ := δ) signs fpu ctx
      (show Shown [] Rest.zero from ⟨rfl, .nil, .nil⟩) hbatch
    exact ⟨_, hrun⟩

end Backends

/-! ### Side by side -/

section Runs
variable {σ : Type} {hash : CStr → UInt64} {signs : ℕ → Bool} {fpu : Fpu} {rng : Rng σ}

/-- What the backends are added to a poller by. -/
structure Added (signs : ℕ → Bool) (fpu : Fpu) (dumps : List Dump) (s s' : PollerState δ σ) :
    Prop where
  backends : s'.poller.backends =
    (s.poller.backends ++ dumps.map (Dump.backend signs fpu)).take pollerMaxBackends
  host : s'.poller.host = s.poller.host
  gen : s'.gen = s.gen

variable (signs fpu) in
theorem added_dumps (dumps : List Dump) (s : PollerState δ σ) :
    Added signs fpu dumps s (dumps.foldl (opticsDump signs fpu) s) := by
  induction dumps generalizing s with
  | nil =>
    refine ⟨?_, rfl, rfl⟩
    rw [List.map_nil, List.append_nil, List.take_of_length_le s.poller.fits]
    rfl
  | cons dump dumps ih =>
    obtain ⟨hbackends, hhost, hgen⟩ := ih (opticsDump signs fpu s dump)
    rw [List.foldl_cons]
    refine ⟨?_, hhost.trans ?_, hgen⟩
    · rw [hbackends, List.map_cons, opticsDump]
      dsimp only [opticsPollerBackend]
      split_ifs with hfull
      · -- no room for this one, nor for the others
        rw [List.take_append_of_le_length hfull, List.take_append_of_le_length hfull]
      · simp
    · rw [opticsDump]
      dsimp only [opticsPollerBackend]
      split_ifs <;> rfl

theorem memory_keeps {p : ℕ} {dumps : List Dump} (hp : p ∉ dumps.map Dump.ctx)
    (s : PollerState δ σ) : (dumps.foldl (opticsDump signs fpu) s).memory p = s.memory p := by
  induction dumps generalizing s with
  | nil => rfl
  | cons dump dumps ih =>
    rw [List.map_cons, List.mem_cons, not_or] at hp
    rw [List.foldl_cons, ih hp.2]
    exact Function.update_of_ne hp.1 _ _

theorem memory_dumps {dumps : List Dump} (hnodup : (dumps.map Dump.ctx).Nodup)
    (s : PollerState δ σ) {dump : Dump} (hdump : dump ∈ dumps) :
    (dumps.foldl (opticsDump signs fpu) s).memory dump.ctx = some dump.context := by
  induction dumps generalizing s with
  | nil => exact absurd hdump List.not_mem_nil
  | cons first dumps ih =>
    rw [List.map_cons, List.nodup_cons] at hnodup
    rw [List.foldl_cons]
    rcases List.mem_cons.mp hdump with rfl | hdump
    · rw [memory_keeps hnodup.1]
      exact Function.update_self _ _ _
    · exact ih hnodup.2 _ hdump

theorem runTell_polls (ht : Total fpu rng) (poller : Poller δ) : ∀ {polls : List PollInput},
    (∀ input ∈ polls, ∃ n < 64,
      Apart hash n ((callWorks (input.at poller.host)).map workKey).toFinset) →
    ∀ gen, ∃ r, runTell hash fpu rng (polls.map .poll) poller gen = .ok r
  | [], _, gen => ⟨_, rfl⟩
  | input :: polls, h, gen => by
    rw [List.forall_mem_cons] at h
    obtain ⟨n, hn, hA⟩ := h.1
    obtain ⟨⟨out, gen1⟩, htell⟩ := tellOf_returns ht hn hA gen
    obtain ⟨r, hrest⟩ := runTell_polls ht poller h.2 gen1
    refine ⟨(out :: r.1, r.2), ?_⟩
    rw [List.map_cons, runTell, opTell, htell, ok_bind]
    dsimp only [Poller.after]
    rw [hrest, ok_bind]

theorem tells_polls {poller : Poller δ} : ∀ {polls : List PollInput}
    {outs : List (Bool × List Event)}, Tells fpu rng poller (polls.map .poll) outs →
    List.Forall₂ (fun input out => Told fpu rng (input.at poller.host) out) polls outs
  | [], _, h => by
    cases h
    exact .nil
  | input :: polls, _, h => by
    rcases h with _ | ⟨htold, h⟩
    cases htold with
    | poll htold => exact .cons htold (tells_polls h)

theorem foldl_polls (polls : List PollInput) (poller : Poller δ) :
    (polls.map PollerOp.poll).foldl Poller.after poller = poller := by
  induction polls with
  | nil => rfl
  | cons input polls ih => exact ih

theorem addsNone_polls (p : ℕ) (polls : List PollInput) :
    AddsNone p (polls.map (PollerOp.poll (δ := δ))) := by
  intro backend hb
  obtain ⟨input, -, hinput⟩ := List.mem_map.mp hb
  cases hinput

theorem Dump.backend_ctx (dump : Dump) : (dump.backend (δ := δ) signs fpu).ctx = dump.ctx := by
  cases dump <;> rfl

variable (signs fpu) in
theorem backendsAt_none {p : ℕ} {dumps : List Dump} (hp : p ∉ dumps.map Dump.ctx) :
    backendsAt p (dumps.map (Dump.backend (δ := δ) signs fpu)) = [] := by
  simp only [List.mem_map, not_exists, not_and] at hp
  simpa [backendsAt, Dump.backend_ctx] using hp

variable (signs fpu) in
theorem backendsAt_one {dumps : List Dump} (hnodup : (dumps.map Dump.ctx).Nodup) {dump : Dump}
    (hdump : dump ∈ dumps) :
    backendsAt dump.ctx (dumps.map (Dump.backend (δ := δ) signs fpu)) = [dump.backend signs fpu] := by
  induction dumps with
  | nil => exact absurd hdump List.not_mem_nil
  | cons first dumps ih =>
    rw [List.map_cons, List.nodup_cons] at hnodup
    rcases List.mem_cons.mp hdump with rfl | hdump
    · have hrest := backendsAt_none (δ := δ) signs fpu hnodup.1
      rw [backendsAt] at hrest
      rw [List.map_cons, backendsAt, List.filter_cons_of_pos (by simp [Dump.backend_ctx]), hrest]
    · have hne : first.ctx ≠ dump.ctx := by
        intro hc
        exact hnodup.1 (hc ▸ List.mem_map_of_mem hdump)
      rw [List.map_cons, backendsAt,
        List.filter_cons_of_neg (by simpa [Dump.backend_ctx] using hne)]
      exact ih hnodup.2 hdump

variable (signs fpu) in
/-- Only standard output is not freed. -/
theorem dump_release (dump : Dump) (ctx : Context δ) :
    ∃ ctx', runCell (([dump.backend (δ := δ) signs fpu]).filterMap fun backend =>
        backend.free.map Backend.release) (some ctx) = .ok ctx' ∧
      (dump ≠ .stdout → ctx' = none) := by
  cases dump with
  | stdout => exact ⟨some ctx, rfl, fun h => absurd rfl h⟩
  | carbon p net => exact ⟨none, rfl, fun _ => rfl⟩
  | rest p => exact ⟨none, rfl, fun _ => rfl⟩

theorem told_of_mem {host : Host} {polls : List PollInput} {outs : List (Bool × List Event)}
    (h : List.Forall₂ (fun input out => Told fpu rng (input.at host) out) polls outs)
    {out : Bool × List Event} (hout : out ∈ outs) :
    ∃ input ∈ polls, Told fpu rng (input.at host) out := by
  obtain ⟨i, hi, rfl⟩ := List.mem_iff_getElem.mp hout
  have hi' : i < polls.length := h.length_eq ▸ hi
  exact ⟨_, List.getElem_mem hi', (List.forall₂_iff_get.mp h).2 i hi' hi⟩

theorem cell_polls {dumps : List Dump} (hnodup : (dumps.map Dump.ctx).Nodup)
    {polls : List PollInput} {outs : List (Bool × List Event)} (hlen : outs.length = polls.length)
    {poller : Poller δ} (hbackends : poller.backends = dumps.map (Dump.backend signs fpu)) :
    (∀ dump ∈ dumps, actsAt dump.ctx (runCalls poller (polls.map .poll) outs) =
      (outs.flatMap Prod.snd).map (dump.backend signs fpu).call) ∧
    ∀ p, p ∉ dumps.map Dump.ctx → actsAt p (runCalls poller (polls.map .poll) outs) = [] := by
  have hlen' : outs.length = (polls.map (PollerOp.poll (δ := δ))).length := by
    rw [hlen, List.length_map]
  refine ⟨fun dump hdump => ?_, fun p hp => ?_⟩
  · have hone := backendsAt_one (δ := δ) signs fpu hnodup hdump
    rw [← hbackends] at hone
    exact actsAt_runCalls_one (addsNone_polls _ polls) hlen' hone
  · have hnone := backendsAt_none (δ := δ) signs fpu hp
    rw [← hbackends] at hnone
    exact actsAt_runCalls_none (addsNone_polls p polls) hlen' hnone

/-- **Freeing a poller** whose contexts are there frees those of its backends, and no others. -/
theorem free_dumps {dumps : List Dump} (hnodup : (dumps.map Dump.ctx).Nodup) {poller : Poller δ}
    (hbackends : poller.backends = dumps.map (Dump.backend signs fpu)) {w : Memory δ}
    (hw : ∀ dump ∈ dumps, ∃ ctx, w dump.ctx = some ctx) :
    ∃ memory, opticsPollerFree poller w = .ok memory ∧
      (∀ dump ∈ dumps, dump ≠ .stdout → memory dump.ctx = none) ∧
      ∀ p, p ∉ dumps.map Dump.ctx → memory p = w p := by
  have hcell (p : ℕ) : ∃ cell, runCell (actsAt p (freeCalls poller.backends)) (w p) = .ok cell ∧
      (∀ dump ∈ dumps, dump.ctx = p → dump ≠ .stdout → cell = none) ∧
      (p ∉ dumps.map Dump.ctx → cell = w p) := by
    rw [actsAt_freeCalls, hbackends]
    by_cases hp : p ∈ dumps.map Dump.ctx
    · obtain ⟨dump, hdump, rfl⟩ := List.mem_map.mp hp
      obtain ⟨ctx, hctx⟩ := hw dump hdump
      obtain ⟨cell, hfree, hgone⟩ := dump_release signs fpu dump ctx
      rw [backendsAt_one signs fpu hnodup hdump, hctx]
      refine ⟨cell, hfree, fun other hother hsame => ?_, fun hc => absurd hp hc⟩
      rw [List.inj_on_of_nodup_map hnodup hother hdump hsame]
      exact hgone
    · rw [backendsAt_none signs fpu hp]
      exact ⟨w p, rfl, fun dump hdump hctx =>
        absurd (List.mem_map.mpr ⟨dump, hdump, hctx⟩) hp, fun _ => rfl⟩
  choose memory hfree hgone hkept using hcell
  exact ⟨memory, runAll_iff.mpr hfree, fun dump hdump => hgone _ dump hdump rfl, hkept⟩

theorem runs_dumps {dumps : List Dump} (hnodup : (dumps.map Dump.ctx).Nodup)
    {polls : List PollInput} {outs : List (Bool × List Event)} (hlen : outs.length = polls.length)
    {poller : Poller δ} (hbackends : poller.backends = dumps.map (Dump.backend signs fpu))
    {w : Memory δ} (hw : ∀ dump ∈ dumps, w dump.ctx = some dump.context)
    (hcells : ∀ dump ∈ dumps, ∃ cell : Option (Context δ), runCell ((outs.flatMap Prod.snd).map
      (dump.backend signs fpu).call) (some dump.context) = .ok cell) :
    ∃ w', runAll (runCalls poller (polls.map .poll) outs) w = .ok w' := by
  obtain ⟨hacts, hothers⟩ := cell_polls hnodup hlen hbackends
  have hcell (p : ℕ) : ∃ cell,
      runCell (actsAt p (runCalls poller (polls.map .poll) outs)) (w p) = .ok cell := by
    by_cases hp : p ∈ dumps.map Dump.ctx
    · obtain ⟨dump, hdump, rfl⟩ := List.mem_map.mp hp
      rw [hacts dump hdump, hw dump hdump]
      exact hcells dump hdump
    · rw [hothers p hp]
      exact ⟨w p, rfl⟩
  choose w' hw' using hcell
  exact ⟨w', runAll_iff.mpr hw'⟩

/-- **What polls leave of the backends**: each has dumped what all of them were told, and what belongs
to nobody is as it was. -/
theorem polls_dumped {dumps : List Dump} (hnodup : (dumps.map Dump.ctx).Nodup)
    {polls : List PollInput} {s s' : PollerState δ σ} {rets : List Bool}
    (hbackends : s.poller.backends = dumps.map (Dump.backend signs fpu))
    (hthere : ∀ dump ∈ dumps, s.memory dump.ctx = some dump.context)
    (hrun : pollerRun hash fpu rng (polls.map .poll) s = .ok (rets, s')) : ∃ outs,
      rets = outs.map Prod.fst ∧
      List.Forall₂ (fun input out => Told fpu rng (input.at s.poller.host) out) polls outs ∧
      s'.poller = s.poller ∧
      (∀ dump ∈ dumps, ∃ ctx, s'.memory dump.ctx = some ctx ∧ Dumped signs fpu outs dump ctx) ∧
      ∀ p, p ∉ dumps.map Dump.ctx → s'.memory p = s.memory p := by
  obtain ⟨outs, htell, hrets, hpoller, hrunall⟩ := pollerRun_iff.mp hrun
  rw [foldl_polls] at hpoller
  have htold := tells_polls (runTell_tells htell)
  have hbatch : ∀ out ∈ outs, Batch out.2 := by
    intro out hout
    obtain ⟨input, -, htold⟩ := told_of_mem htold hout
    exact told_batch htold
  obtain ⟨hacts, hothers⟩ := cell_polls hnodup htold.length_eq.symm hbackends
  refine ⟨outs, hrets, htold, hpoller, fun dump hdump => ?_, fun p hp => ?_⟩
  · have hcell := runAll_iff.mp hrunall dump.ctx
    rw [hacts dump hdump, hthere dump hdump] at hcell
    exact dump_dumped signs fpu dump hbatch hcell
  · have hcell := runAll_iff.mp hrunall p
    rw [hothers p hp] at hcell
    exact (Except.ok.inj hcell).symm

theorem polls_return (ht : Total fpu rng) {dumps : List Dump}
    (hnodup : (dumps.map Dump.ctx).Nodup) {polls : List PollInput} {s : PollerState δ σ}
    (hbackends : s.poller.backends = dumps.map (Dump.backend signs fpu))
    (hthere : ∀ dump ∈ dumps, s.memory dump.ctx = some dump.context)
    (hA : ∀ input ∈ polls, ∃ n < 64,
      Apart hash n ((callWorks (input.at s.poller.host)).map workKey).toFinset)
    (hshaped : ∀ input ∈ polls, WorksShaped (input.at s.poller.host)) :
    ∃ r, pollerRun hash fpu rng (polls.map .poll) s = .ok r := by
  obtain ⟨⟨outs, gen'⟩, htell⟩ := runTell_polls ht s.poller hA s.gen
  have htold := tells_polls (runTell_tells htell)
  have hout : ∀ out ∈ outs, Batch out.2 ∧ ∀ poll ∈ recordsOf out.2, Shaped poll.value := by
    intro out hout
    obtain ⟨input, hinput, htold⟩ := told_of_mem htold hout
    exact ⟨told_batch htold, told_shaped htold (hshaped input hinput)⟩
  have hpolls : ∀ poll ∈ recordsOf (outs.flatMap Prod.snd), Shaped poll.value := by
    intro poll hpoll
    obtain ⟨event, hevent, hsnd⟩ := List.mem_filterMap.mp hpoll
    obtain ⟨out, hmem, hevent⟩ := List.mem_flatMap.mp hevent
    exact (hout out hmem).2 poll (List.mem_filterMap.mpr ⟨event, hevent, hsnd⟩)
  obtain ⟨w', hw'⟩ := runs_dumps hnodup htold.length_eq.symm hbackends hthere
    fun dump _ => dump_returns signs fpu dump (fun out hmem => (hout out hmem).1) hpolls
  exact ⟨(_, ⟨_, w', gen'⟩), pollerRun_iff.mpr ⟨outs, htell, rfl, rfl, hw'⟩⟩

/-- **The backends of the library agree.** However many of them are added to a poller and whatever
the network does, of every run of polls that returns: the polls have told the first eight the same
records, and what each has printed, sent or shows is what these records alone make of it; those there
was no room for have heard nothing. Freeing the poller frees the contexts of the first eight, and no
others. Polls return if conversions and draws do, the hashes of their keys are apart, and the
histograms have 2 to 9 bounds. -/
theorem dumps_agree {s : PollerState δ σ} (hs : s.poller.backends = []) {dumps : List Dump}
    (hnodup : (dumps.map Dump.ctx).Nodup) (polls : List PollInput) :
    (∀ rets s', pollerRun hash fpu rng (polls.map .poll) (dumps.foldl (opticsDump signs fpu) s) =
        .ok (rets, s') →
      ∃ outs, rets = outs.map Prod.fst ∧
        List.Forall₂ (fun input out => Told fpu rng (input.at s.poller.host) out) polls outs ∧
        (∀ dump ∈ dumps.take pollerMaxBackends, ∃ ctx, s'.memory dump.ctx = some ctx ∧
          Dumped signs fpu outs dump ctx) ∧
        (∀ dump ∈ dumps.drop pollerMaxBackends, s'.memory dump.ctx = some dump.context) ∧
        ∃ memory, opticsPollerFree s'.poller s'.memory = .ok memory ∧
          (∀ dump ∈ dumps.take pollerMaxBackends, dump ≠ .stdout → memory dump.ctx = none) ∧
          ∀ dump ∈ dumps.drop pollerMaxBackends, memory dump.ctx = some dump.context) ∧
    (Total fpu rng →
      (∀ input ∈ polls, ∃ n < 64,
        Apart hash n ((callWorks (input.at s.poller.host)).map workKey).toFinset) →
      (∀ input ∈ polls, WorksShaped (input.at s.poller.host)) →
      ∃ r, pollerRun hash fpu rng (polls.map .poll) (dumps.foldl (opticsDump signs fpu) s) =
        .ok r) := by
  obtain ⟨hbackends, hhost, hgen⟩ := added_dumps signs fpu dumps s
  rw [hs, List.nil_append, ← List.map_take] at hbackends
  have hmemory (dump : Dump) (hdump : dump ∈ dumps) :
      (dumps.foldl (opticsDump signs fpu) s).memory dump.ctx = some dump.context :=
    memory_dumps hnodup s hdump
  have hfirst : ((dumps.take pollerMaxBackends).map Dump.ctx).Nodup :=
    hnodup.sublist ((List.take_sublist _ _).map _)
  -- a backend behind the first eight has none of their contexts
  have hlast : ∀ dump ∈ dumps.drop pollerMaxBackends,
      dump.ctx ∉ (dumps.take pollerMaxBackends).map Dump.ctx := by
    intro dump hdump hc
    rw [← List.take_append_drop pollerMaxBackends dumps, List.map_append,
      List.nodup_append] at hnodup
    exact hnodup.2.2 _ hc _ (List.mem_map_of_mem hdump) rfl
  have hthere (dump : Dump) (hdump : dump ∈ dumps.take pollerMaxBackends) :=
    hmemory dump (List.mem_of_mem_take hdump)
  generalize dumps.foldl (opticsDump signs fpu) s = s1 at hbackends hhost hmemory hthere ⊢
  rw [← hhost]
  refine ⟨fun rets s' hrun => ?_,
    fun ht hA hshaped => polls_return ht hfirst hbackends hthere hA hshaped⟩
  obtain ⟨outs, hrets, htold, hpoller, hdumped, hothers⟩ :=
    polls_dumped hfirst hbackends hthere hrun
  have hkept : ∀ dump ∈ dumps.drop pollerMaxBackends,
      s'.memory dump.ctx = some dump.context := fun dump hdump =>
    (hothers _ (hlast dump hdump)).trans (hmemory dump (List.mem_of_mem_drop hdump))
  rw [← hpoller] at hbackends
  obtain ⟨memory, hfree, hgone, hstay⟩ := free_dumps hfirst hbackends
    fun dump hdump => (hdumped dump hdump).imp fun _ h => h.1
  refine ⟨outs, hrets, htold, hdumped, hkept, memory, hfree, hgone, fun dump hdump => ?_⟩
  exact (hstay _ (hlast dump hdump)).trans (hkept dump hdump)

end Runs

/-- A network that takes every line. -/
def taking (_ : ℕ) : ℤ × Sent := (3, .bytes 1000)

/-- Standard output, carbon and REST at one poller. -/
def threeDumps : List Dump := [.stdout, .carbon 1 taking, .rest 2]

/-- Two polls of one region. -/
def twoPolls : List PollInput := [⟨15, [counterFile], 0⟩, ⟨16, [counterFile], 0⟩]

/-- All three are told of two polls. -/
theorem dumps_agree_three : ∃ (outs : List (Bool × List Event)) (s' : PollerState ℕ UInt64),
    pollerRun htableHash saturating (xorshift saturating) (twoPolls.map .poll)
      (threeDumps.foldl (opticsDump (fun _ => false) saturating) freshPoller) =
        .ok (outs.map Prod.fst, s') ∧
    ∀ dump ∈ threeDumps, ∃ ctx, s'.memory dump.ctx = some ctx ∧
      Dumped (fun _ => false) saturating outs dump ctx := by
  obtain ⟨hagree, hreturns⟩ := @dumps_agree ℕ UInt64 htableHash (fun _ => false) saturating
    (xorshift saturating) freshPoller rfl threeDumps (by decide) twoPolls
  have hA : ∀ input ∈ twoPolls, ∃ n < 64,
      Apart htableHash n ((callWorks (input.at freshPoller.poller.host)).map workKey).toFinset := by
    simp only [twoPolls, List.forall_mem_cons, List.not_mem_nil, false_implies, implies_true,
      and_true]
    exact ⟨⟨0, by decide, apart_counterFile 15⟩, 0, by decide, apart_counterFile 16⟩
  have hshaped : ∀ input ∈ twoPolls, WorksShaped (input.at freshPoller.poller.host) := by
    have hone (ts : ℕ) : WorksShaped (pollOf ts [counterFile]) := by
      intro work hwork
      rw [callWorks_counterFile] at hwork
      rw [List.mem_singleton.mp hwork]
      trivial
    simp only [twoPolls, List.forall_mem_cons, List.not_mem_nil, false_implies, implies_true,
      and_true]
    exact ⟨hone 15, hone 16⟩
  obtain ⟨⟨rets, s'⟩, hrun⟩ := hreturns total_saturating hA hshaped
  obtain ⟨outs, rfl, -, hdumped, -⟩ := hagree rets s' hrun
  exact ⟨outs, s', hrun, hdumped⟩

end Optics.PollerDumps
