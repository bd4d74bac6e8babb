import Optics.BackendCarbon
import Optics.Lib.Cells
import Optics.RestPolls

/-! # A poller and its backends

`poller.c`, and `optics_poller_poll_at` with any backends behind it. A backend is a callback with a
context; the contexts are the cells of a memory, and standard output stands at `NULL`. What a poll
has to tell it tells every backend, event by event, in the order in which they were added; there is
room for eight.

* `Told`: the events of a poll;
* `pollerRun_told`: what a run of a poller does to the contexts;
* `poller_tells`: a backend hears the events of all polls from the moment it is added, in their
  order and each once, and nobody else works on its context. -/

namespace Optics.Pollers

open Optics.Base Optics.Lenses Optics.Doubles Optics.Utils.Random Optics.Lib.Cells
open Optics.Utils.Htables Optics.Utils.HtableGrowth
open Optics.Polling Optics.PollTotals Optics.PollReturns Optics.BackendRest Optics.RestPolls
open Optics.BackendCarbon (Client)

/-! ### The data -/

/-- What the context of a backend points to; what is behind `NULL` is standard output, with what has
been printed and how many lines that are. -/
inductive Context (δ : Type) where
  | output (text : List UInt8) (printed : ℕ)
  | carbon (client : Client) (sent : ℕ)
  | rest (rest : Rest)
  | other (ctx : δ)

/-- The contexts by their addresses; one that has been freed is gone. -/
abbrev Memory (δ : Type) := ℕ → Option (Context δ)

/-- What a callback is called with: `enum optics_poll_type`, and the record. -/
abbrev Event := OpticsPollType × Option OpticsPoll

/-- `struct backend`. -/
structure Backend (δ : Type) where
  ctx : ℕ
  cb : Context δ → Event → Outcome (Context δ)
  free : Option (Context δ → Outcome Unit)

def pollerMaxBackends : ℕ := 8

/-- A host that has room in a poller. -/
abbrev Host := { host : CStr // host.strnlen opticsNameMaxLen ≠ opticsNameMaxLen }

/-- `struct optics_poller`. -/
structure Poller (δ : Type) where
  host : Host
  backends : List (Backend δ)
  fits : backends.length ≤ pollerMaxBackends

variable {δ : Type}

/-! ### The functions -/

/-- `optics_poller_alloc`, with what `hostname` gives. -/
def opticsPollerAlloc (hostname : Option Host) : Option (Poller δ) := do
  let host ← hostname
  some ⟨host, [], Nat.zero_le _⟩

/-- `optics_poller_set_host`. -/
def opticsPollerSetHost (poller : Poller δ) (host : CStr) : Bool × Poller δ :=
  if h : host.strnlen opticsNameMaxLen = opticsNameMaxLen then (false, poller)
  else (true, { poller with host := ⟨host, h⟩ })

/-- `optics_poller_backend`. -/
def opticsPollerBackend (poller : Poller δ) (backend : Backend δ) : Bool × Poller δ :=
  if h : poller.backends.length ≥ pollerMaxBackends then (false, poller)
  else (true, ⟨poller.host, poller.backends ++ [backend], by
    rw [List.length_append, List.length_singleton]
    omega⟩)

/-- A call of the callback of a backend, with its context. -/
def Backend.call (backend : Backend δ) (event : Event) :
    Option (Context δ) → Outcome (Option (Context δ))
  | none => .error .undefined
  | some ctx => do
    let ctx ← backend.cb ctx event
    .ok (some ctx)

/-- The calls of an event. -/
def eventCalls (backends : List (Backend δ)) (event : Event) :
    List (Action ℕ (Option (Context δ)) Fault) :=
  backends.map fun backend => ⟨backend.ctx, backend.call event⟩

/-- `poller_backend_record`. -/
def pollerBackendRecord (poller : Poller δ) (event : Event) (w : Memory δ) : Outcome (Memory δ) :=
  runAll (eventCalls poller.backends event) w

/-- The loop over the records. -/
def recordAll (poller : Poller δ) : List OpticsPoll → Memory δ → Outcome (Memory δ)
  | [], w => .ok w
  | poll :: polls, w => do
    let w ← pollerBackendRecord poller (.pollMetric, some poll) w
    recordAll poller polls w

/-- What a poll finds: the time, the entries of the directory, and what is on the stack. -/
structure PollInput where
  ts : ℕ
  dir : List Dirent
  junk : ShmRet

/-- The same, with the host of the poller. -/
def PollInput.at (input : PollInput) (host : Host) : PollCall :=
  ⟨host.val, input.ts, input.dir, input.junk⟩

/-- `free` of a context by its backend. -/
def Backend.release (free : Context δ → Outcome Unit) :
    Option (Context δ) → Outcome (Option (Context δ))
  | none => .error .undefined
  | some ctx => do
    free ctx
    .ok none

/-- What `optics_poller_free` does to the contexts. -/
def freeCalls (backends : List (Backend δ)) : List (Action ℕ (Option (Context δ)) Fault) :=
  backends.filterMap fun backend =>
    backend.free.map fun free => ⟨backend.ctx, Backend.release free⟩

/-- `optics_poller_free`. -/
def opticsPollerFree (poller : Poller δ) (w : Memory δ) : Outcome (Memory δ) :=
  runAll (freeCalls poller.backends) w

section Ops
variable {σ : Type} (hash : CStr → UInt64) (fpu : Fpu) (rng : Rng σ)

/-- `optics_poller_poll_at`. -/
def opticsPollerPollAt (poller : Poller δ) (input : PollInput) (w : Memory δ) (gen : σ) :
    Outcome (Bool × Memory δ × σ) :=
  let (toPoll, ret) := shmForeach pollerShmCb input.dir [] input.junk
  if ret = shmErr then .ok (false, w, gen)
  else if toPoll.length = 0 then .ok (true, w, gen)
  else do
    let (_, values) ← pollItems hash fpu rng poller.host.val input.ts toPoll (Values.zero gen)
    let polls ← tableRecords values.polls (htableItems values.table)
    let w ← pollerBackendRecord poller (.pollBegin, none) w
    let w ← recordAll poller polls w
    let w ← pollerBackendRecord poller (.pollDone, none) w
    .ok (true, w, values.gen)

/-- A call of a function of the poller. -/
inductive PollerOp (δ : Type) where
  | setHost (host : CStr)
  | backend (backend : Backend δ)
  | poll (input : PollInput)

/-- A poller, the contexts, and the generator. -/
structure PollerState (δ σ : Type) where
  poller : Poller δ
  memory : Memory δ
  gen : σ

/-- One call. -/
def pollerStep (s : PollerState δ σ) : PollerOp δ → Outcome (Bool × PollerState δ σ)
  | .setHost host =>
    let (ret, poller) := opticsPollerSetHost s.poller host
    .ok (ret, { s with poller := poller })
  | .backend backend =>
    let (ret, poller) := opticsPollerBackend s.poller backend
    .ok (ret, { s with poller := poller })
  | .poll input => do
    let (ret, memory, gen) ← opticsPollerPollAt hash fpu rng s.poller input s.memory s.gen
    .ok (ret, ⟨s.poller, memory, gen⟩)

/-- Calls one after the other, and what they return. -/
def pollerRun : List (PollerOp δ) → PollerState δ σ → Outcome (List Bool × PollerState δ σ)
  | [], s => .ok ([], s)
  | op :: ops, s => do
    let (ret, s) ← pollerStep hash fpu rng s op
    let (rets, s) ← pollerRun ops s
    .ok (ret :: rets, s)

end Ops

/-! ### Events -/

/-- The events of a poll with records. -/
def eventsOf (polls : List OpticsPoll) : List Event :=
  (.pollBegin, none) :: (polls.map fun poll => (.pollMetric, some poll)) ++ [(.pollDone, none)]

/-- The calls of events one after the other. -/
def callsOf (backends : List (Backend δ)) (events : List Event) :
    List (Action ℕ (Option (Context δ)) Fault) :=
  events.flatMap (eventCalls backends)

/-- The records of a poll: one for each key of a lens that was polled, with the value that all
lenses of the key have been read into. -/
structure Records {σ : Type} (fpu : Fpu) (rng : Rng σ) (call : PollCall) (polls : List OpticsPoll) :
    Prop where
  nodup : (polls.map fun poll => (metricOf poll).key).Nodup
  keys : ∀ k, (∃ poll ∈ polls, (metricOf poll).key = k) ↔ ∃ w ∈ callWorks call, workKey w = k
  values : ∃ out : List (ℕ × PolledLens), out.length = (callWorks call).length ∧ ∀ poll ∈ polls,
    Merged fpu rng ((visits (callWorks call) out).filter fun v => v.key = (metricOf poll).key) poll

/-- **What a poll returns and tells**: nothing is told if it finds no region. -/
inductive Told {σ : Type} (fpu : Fpu) (rng : Rng σ) (call : PollCall) : Bool × List Event → Prop
  | nothing (h : openRegions call.dir = []) : Told fpu rng call
      (!decide (call.dir.any Dirent.isOptics = false ∧ call.junk = shmErr), [])
  | records {polls : List OpticsPoll} (h : openRegions call.dir ≠ [])
      (hrecords : Records fpu rng call polls) : Told fpu rng call (true, eventsOf polls)

/-- The poller after a call. -/
def Poller.after (poller : Poller δ) : PollerOp δ → Poller δ
  | .setHost host => (opticsPollerSetHost poller host).2
  | .backend backend => (opticsPollerBackend poller backend).2
  | .poll _ => poller

/-- What a call of the poller returns and tells. -/
inductive OpTold {σ : Type} (fpu : Fpu) (rng : Rng σ) (poller : Poller δ) :
    PollerOp δ → Bool × List Event → Prop
  | setHost (host : CStr) :
      OpTold fpu rng poller (.setHost host) ((opticsPollerSetHost poller host).1, [])
  | backend (backend : Backend δ) :
      OpTold fpu rng poller (.backend backend) ((opticsPollerBackend poller backend).1, [])
  | poll {input : PollInput} {out : Bool × List Event}
      (h : Told fpu rng (input.at poller.host) out) : OpTold fpu rng poller (.poll input) out

/-- What the calls of a run return and tell. -/
inductive Tells {σ : Type} (fpu : Fpu) (rng : Rng σ) :
    Poller δ → List (PollerOp δ) → List (Bool × List Event) → Prop
  | nil (poller : Poller δ) : Tells fpu rng poller [] []
  | cons {poller : Poller δ} {op : PollerOp δ} {out : Bool × List Event} {ops : List (PollerOp δ)}
      {outs : List (Bool × List Event)} (hop : OpTold fpu rng poller op out)
      (h : Tells fpu rng (poller.after op) ops outs) :
      Tells fpu rng poller (op :: ops) (out :: outs)

/-- All calls of callbacks in a run. -/
def runCalls : Poller δ → List (PollerOp δ) → List (Bool × List Event) →
    List (Action ℕ (Option (Context δ)) Fault)
  | poller, op :: ops, out :: outs =>
    callsOf poller.backends out.2 ++ runCalls (poller.after op) ops outs
  | _, _, _ => []

/-! ### A poll -/

theorem recordAll_eq (poller : Poller δ) (polls : List OpticsPoll) (w : Memory δ) :
    recordAll poller polls w =
      runAll (callsOf poller.backends (polls.map fun poll => (.pollMetric, some poll))) w := by
  induction polls generalizing w with
  | nil => rfl
  | cons poll polls ih =>
    rw [recordAll, pollerBackendRecord, List.map_cons, callsOf, List.flatMap_cons, runAll_append]
    congr
    funext w1
    exact ih w1

/-- The three phases of a poll are the calls of its events. -/
theorem record_eq (poller : Poller δ) (polls : List OpticsPoll) (w : Memory δ) :
    (do
      let w ← pollerBackendRecord poller (.pollBegin, none) w
      let w ← recordAll poller polls w
      pollerBackendRecord poller (.pollDone, none) w) =
      runAll (callsOf poller.backends (eventsOf polls)) w := by
  have hcalls : callsOf poller.backends (eventsOf polls) =
      eventCalls poller.backends (.pollBegin, none) ++
        (callsOf poller.backends (polls.map fun poll => (.pollMetric, some poll)) ++
          eventCalls poller.backends (.pollDone, none)) := by
    simp [callsOf, eventsOf]
  rw [hcalls, runAll_append]
  congr
  funext w1
  rw [runAll_append, recordAll_eq]
  rfl


section Runs
variable {σ : Type} {hash : CStr → UInt64} {fpu : Fpu} {rng : Rng σ}

/-- What a poll would tell backends that are not there. -/
def tellOf (hash : CStr → UInt64) (fpu : Fpu) (rng : Rng σ) (call : PollCall) (gen : σ) :
    Outcome ((Bool × List Event) × σ) :=
  if openRegions call.dir = [] then
    .ok ((!decide (call.dir.any Dirent.isOptics = false ∧ call.junk = shmErr), []), gen)
  else do
    let (_, values) ← pollItems hash fpu rng call.host call.ts (openRegions call.dir)
      (Values.zero gen)
    let polls ← tableRecords values.polls (htableItems values.table)
    .ok ((true, eventsOf polls), values.gen)

theorem tellOf_told {call : PollCall} {gen gen' : σ} {out : Bool × List Event}
    (h : tellOf hash fpu rng call gen = .ok (out, gen')) : Told fpu rng call out := by
  unfold tellOf at h
  by_cases hopen : openRegions call.dir = []
  · rw [if_pos hopen] at h
    cases h
    exact .nothing hopen
  · rw [if_neg hopen] at h
    obtain ⟨⟨out, values⟩, hpoll, h⟩ := Base.bind_eq_ok.mp h
    obtain ⟨records, hrecords, hnodup, hkeys, hmerged⟩ := records_spec hpoll
    dsimp only at h
    rw [hrecords, ok_bind] at h
    cases h
    exact .records hopen ⟨hnodup, hkeys, out.flatten, (pollItems_visited hpoll).1, hmerged⟩

/-- **A poll is what it tells, told to the backends.** -/
theorem opticsPollerPollAt_eq (poller : Poller δ) (input : PollInput) (w : Memory δ) (gen : σ) :
    opticsPollerPollAt hash fpu rng poller input w gen = (do
      let (out, gen) ← tellOf hash fpu rng (input.at poller.host) gen
      let w ← runAll (callsOf poller.backends out.2) w
      .ok (out.1, w, gen)) := by
  obtain ⟨hlist, herr⟩ := shmForeach_open (input.at poller.host)
  have hdef : opticsPollerPollAt hash fpu rng poller input w gen =
      if (shmForeach pollerShmCb input.dir [] input.junk).2 = shmErr then .ok (false, w, gen)
      else if (shmForeach pollerShmCb input.dir [] input.junk).1.length = 0 then .ok (true, w, gen)
      else (do
        let (_, values) ← pollItems hash fpu rng poller.host.val input.ts
          (shmForeach pollerShmCb input.dir [] input.junk).1 (Values.zero gen)
        let polls ← tableRecords values.polls (htableItems values.table)
        let w ← runAll (callsOf poller.backends (eventsOf polls)) w
        .ok (true, w, values.gen)) := by
    simp only [← record_eq, bind_assoc]
    rfl
  rw [hdef]
  by_cases hopen : openRegions (input.at poller.host).dir = []
  · rw [tellOf, if_pos hopen, ok_bind]
    have hlen : (shmForeach pollerShmCb input.dir [] input.junk).1.length = 0 :=
      List.length_eq_zero_iff.mpr (hlist.trans hopen)
    by_cases hret : (shmForeach pollerShmCb input.dir [] input.junk).2 = shmErr
    · rw [if_pos hret, decide_eq_true (herr.mp hret)]
      rfl
    · rw [if_neg hret, if_pos hlen,
        decide_eq_false fun hc => hret (herr.mpr hc)]
      rfl
  · have hret : (shmForeach pollerShmCb input.dir [] input.junk).2 ≠ shmErr :=
      (shmForeach_found hopen).2
    have hlen : (shmForeach pollerShmCb input.dir [] input.junk).1.length ≠ 0 := by
      intro hc
      exact hopen (hlist.symm.trans (List.length_eq_zero_iff.mp hc))
    rw [tellOf, if_neg hopen, if_neg hret, if_neg hlen]
    simp only [bind_assoc]
    rw [show (shmForeach pollerShmCb input.dir [] input.junk).1 = _ from hlist]
    rfl

/-- A poll, and the poller with its generator, for the calls of a run. -/
def opTell (hash : CStr → UInt64) (fpu : Fpu) (rng : Rng σ) (poller : Poller δ) (gen : σ) :
    PollerOp δ → Outcome ((Bool × List Event) × σ)
  | .setHost host => .ok (((opticsPollerSetHost poller host).1, []), gen)
  | .backend backend => .ok (((opticsPollerBackend poller backend).1, []), gen)
  | .poll input => tellOf hash fpu rng (input.at poller.host) gen

/-- What the calls of a run would tell. -/
def runTell (hash : CStr → UInt64) (fpu : Fpu) (rng : Rng σ) :
    List (PollerOp δ) → Poller δ → σ → Outcome (List (Bool × List Event) × σ)
  | [], _, gen => .ok ([], gen)
  | op :: ops, poller, gen => do
    let (out, gen) ← opTell hash fpu rng poller gen op
    let (outs, gen) ← runTell hash fpu rng ops (poller.after op) gen
    .ok (out :: outs, gen)

theorem opTell_told {poller : Poller δ} {gen gen' : σ} {op : PollerOp δ} {out : Bool × List Event}
    (h : opTell hash fpu rng poller gen op = .ok (out, gen')) : OpTold fpu rng poller op out := by
  cases op with
  | setHost host =>
    cases h
    exact .setHost host
  | backend backend =>
    cases h
    exact .backend backend
  | poll input => exact .poll (tellOf_told h)

theorem runTell_tells {ops : List (PollerOp δ)} {poller : Poller δ} {gen gen' : σ}
    {outs : List (Bool × List Event)}
    (h : runTell hash fpu rng ops poller gen = .ok (outs, gen')) :
    Tells fpu rng poller ops outs := by
  induction ops generalizing poller gen outs with
  | nil =>
    cases h
    exact .nil poller
  | cons op ops ih =>
    obtain ⟨⟨out, gen1⟩, hop, h⟩ := Base.bind_eq_ok.mp h
    obtain ⟨⟨outs1, gen2⟩, hrest, h⟩ := Base.bind_eq_ok.mp h
    cases h
    exact .cons (opTell_told hop) (ih hrest)

/-- A call is what it tells, told to the backends. -/
theorem pollerStep_eq (s : PollerState δ σ) (op : PollerOp δ) :
    pollerStep hash fpu rng s op = (do
      let (out, gen) ← opTell hash fpu rng s.poller s.gen op
      let memory ← runAll (callsOf s.poller.backends out.2) s.memory
      .ok (out.1, ⟨s.poller.after op, memory, gen⟩)) := by
  cases op with
  | setHost host => rfl
  | backend backend => rfl
  | poll input =>
    rw [pollerStep, opticsPollerPollAt_eq]
    simp only [bind_assoc]
    rfl

/-- **A run** goes through exactly if its polls do, and what they tell can be told; what they tell
does not depend on the backends. -/
theorem pollerRun_iff {ops : List (PollerOp δ)} {s s' : PollerState δ σ} {rets : List Bool} :
    pollerRun hash fpu rng ops s = .ok (rets, s') ↔
      ∃ outs, runTell hash fpu rng ops s.poller s.gen = .ok (outs, s'.gen) ∧
        rets = outs.map Prod.fst ∧ s'.poller = ops.foldl Poller.after s.poller ∧
        runAll (runCalls s.poller ops outs) s.memory = .ok s'.memory := by
  induction ops generalizing s rets with
  | nil =>
    constructor
    · intro h
      cases h
      exact ⟨[], rfl, rfl, rfl, rfl⟩
    · rintro ⟨outs, htell, rfl, hpoller, hrun⟩
      obtain ⟨poller, memory, gen⟩ := s
      obtain ⟨poller', memory', gen'⟩ := s'
      cases htell
      cases hpoller
      cases hrun
      rfl
  | cons op ops ih =>
    rw [pollerRun, pollerStep_eq]
    constructor
    · intro h
      obtain ⟨⟨ret, s1⟩, hstep, h⟩ := Base.bind_eq_ok.mp h
      obtain ⟨⟨out, gen1⟩, hop, hstep⟩ := Base.bind_eq_ok.mp hstep
      obtain ⟨w1, hw, hstep⟩ := Base.bind_eq_ok.mp hstep
      cases hstep
      obtain ⟨⟨rets1, s2⟩, hrest, h⟩ := Base.bind_eq_ok.mp h
      cases h
      obtain ⟨outs, htell, rfl, hpoller, hrun⟩ := ih.mp hrest
      refine ⟨out :: outs, ?_, rfl, hpoller, ?_⟩
      · rw [runTell, hop, ok_bind]
        dsimp only at htell ⊢
        rw [htell, ok_bind]
      · rw [runCalls, runAll_append, hw]
        exact hrun
    · rintro ⟨outs, htell, rfl, hpoller, hrun⟩
      obtain ⟨⟨out, gen1⟩, hop, htell⟩ := Base.bind_eq_ok.mp htell
      obtain ⟨⟨outs1, gen2⟩, hrest, htell⟩ := Base.bind_eq_ok.mp htell
      cases htell
      rw [runCalls, runAll_append] at hrun
      obtain ⟨w1, hw, hrun⟩ := Base.bind_eq_ok.mp hrun
      rw [hop, ok_bind]
      dsimp only
      rw [hw, ok_bind, ok_bind]
      dsimp only
      rw [ih.mpr ⟨outs1, hrest, rfl, hpoller, hrun⟩]
      rfl

/-- A poll tells something if the hashes of its keys are apart. -/
theorem tellOf_returns (ht : Total fpu rng) {call : PollCall} {n : ℕ} (hn : n < 64)
    (hA : Apart hash n ((callWorks call).map workKey).toFinset) (gen : σ) :
    ∃ r, tellOf hash fpu rng call gen = .ok r := by
  unfold tellOf
  by_cases hopen : openRegions call.dir = []
  · exact ⟨_, if_pos hopen⟩
  · obtain ⟨out, values, hpoll⟩ := pollItems_returns ht hn hA gen
    obtain ⟨records, hrecords, -⟩ := records_spec hpoll
    refine ⟨((true, eventsOf records), values.gen), ?_⟩
    rw [if_neg hopen, hpoll, ok_bind]
    dsimp only
    rw [hrecords, ok_bind]

end Runs

/-! ### One backend -/

/-- The backends with a context. -/
def backendsAt (p : ℕ) (backends : List (Backend δ)) : List (Backend δ) :=
  backends.filter fun backend => backend.ctx = p

/-- No call adds a backend with the context. -/
def AddsNone (p : ℕ) (ops : List (PollerOp δ)) : Prop :=
  ∀ backend, PollerOp.backend backend ∈ ops → backend.ctx ≠ p

theorem actsAt_callsOf (p : ℕ) (backends : List (Backend δ)) (events : List Event) :
    actsAt p (callsOf backends events) =
      events.flatMap fun event => (backendsAt p backends).map fun b => b.call event := by
  induction events with
  | nil => rfl
  | cons event events ih =>
    rw [callsOf, List.flatMap_cons, actsAt_append, List.flatMap_cons, ← ih]
    congr 1
    simp [actsAt, eventCalls, backendsAt, List.filter_map, Function.comp_def]

theorem actsAt_freeCalls (p : ℕ) (backends : List (Backend δ)) :
    actsAt p (freeCalls backends) =
      (backendsAt p backends).filterMap fun backend => backend.free.map Backend.release := by
  induction backends with
  | nil => rfl
  | cons backend backends ih =>
    have hcons : freeCalls (backend :: backends) =
        (backend.free.map fun free => ⟨backend.ctx, Backend.release free⟩).toList ++
          freeCalls backends := by
      rw [freeCalls, freeCalls, List.filterMap_cons]
      rcases backend.free with _ | free
      · rfl
      · rfl
    rw [hcons, actsAt_append, ih]
    by_cases hp : backend.ctx = p
    · rcases hfree : backend.free with _ | free
      · simp [actsAt, backendsAt, hp, hfree]
      · simp [actsAt, backendsAt, hp, hfree]
    · rcases backend.free with _ | free
      · simp [actsAt, backendsAt, hp]
      · simp [actsAt, backendsAt, hp]

theorem backendsAt_after {p : ℕ} {poller : Poller δ} {op : PollerOp δ}
    (h : AddsNone p [op]) :
    backendsAt p (poller.after op).backends = backendsAt p poller.backends := by
  cases op with
  | setHost host =>
    rw [Poller.after, opticsPollerSetHost]
    split_ifs <;> rfl
  | backend backend =>
    have hne : backend.ctx ≠ p := h backend (by simp)
    rw [Poller.after, opticsPollerBackend]
    split_ifs
    · rfl
    · simp [backendsAt, hne]
  | poll input => rfl

theorem AddsNone.cons_iff {p : ℕ} {op : PollerOp δ} {ops : List (PollerOp δ)} :
    AddsNone p (op :: ops) ↔ AddsNone p [op] ∧ AddsNone p ops := by
  constructor
  · intro h
    refine ⟨fun b hb => h b ?_, fun b hb => h b (List.mem_cons_of_mem _ hb)⟩
    rw [List.mem_singleton.mp hb]
    exact List.mem_cons_self
  · rintro ⟨hop, hops⟩ b hb
    rcases List.mem_cons.mp hb with hb | hb
    · exact hop b (by rw [hb]; exact List.mem_cons_self)
    · exact hops b hb

theorem actsAt_runCalls {p : ℕ} {ops : List (PollerOp δ)} {outs : List (Bool × List Event)}
    (h : AddsNone p ops) (hlen : outs.length = ops.length) (poller : Poller δ) :
    actsAt p (runCalls poller ops outs) = (outs.flatMap Prod.snd).flatMap fun event =>
      (backendsAt p poller.backends).map fun b => b.call event := by
  induction ops generalizing outs poller with
  | nil =>
    rw [List.length_eq_zero_iff.mp hlen]
    rfl
  | cons op ops ih =>
    obtain _ | ⟨out, outs⟩ := outs
    · cases hlen
    · obtain ⟨hop, hops⟩ := AddsNone.cons_iff.mp h
      rw [runCalls, actsAt_append, actsAt_callsOf, ih hops (by simpa using hlen),
        backendsAt_after hop, List.flatMap_cons, List.flatMap_append]

theorem actsAt_runCalls_none {p : ℕ} {ops : List (PollerOp δ)} {outs : List (Bool × List Event)}
    (h : AddsNone p ops) (hlen : outs.length = ops.length) {poller : Poller δ}
    (hnone : backendsAt p poller.backends = []) : actsAt p (runCalls poller ops outs) = [] := by
  rw [actsAt_runCalls h hlen, hnone]
  simp

theorem actsAt_runCalls_one {p : ℕ} {ops : List (PollerOp δ)} {outs : List (Bool × List Event)}
    (h : AddsNone p ops) (hlen : outs.length = ops.length) {poller : Poller δ} {backend : Backend δ}
    (hone : backendsAt p poller.backends = [backend]) :
    actsAt p (runCalls poller ops outs) = (outs.flatMap Prod.snd).map backend.call := by
  rw [actsAt_runCalls h hlen, hone]
  exact (List.map_eq_flatMap ..).symm

theorem runCalls_append {ops ops' : List (PollerOp δ)} {outs outs' : List (Bool × List Event)}
    (hlen : outs.length = ops.length) (poller : Poller δ) :
    runCalls poller (ops ++ ops') (outs ++ outs') =
      runCalls poller ops outs ++ runCalls (ops.foldl Poller.after poller) ops' outs' := by
  induction ops generalizing outs poller with
  | nil =>
    rw [List.length_eq_zero_iff.mp hlen]
    rfl
  | cons op ops ih =>
    obtain _ | ⟨out, outs⟩ := outs
    · cases hlen
    · rw [List.cons_append, List.cons_append, runCalls, runCalls, ih (by simpa using hlen),
        List.foldl_cons, List.append_assoc]

theorem backendsAt_foldl {p : ℕ} {ops : List (PollerOp δ)} (h : AddsNone p ops)
    (poller : Poller δ) : backendsAt p (ops.foldl Poller.after poller).backends =
      backendsAt p poller.backends := by
  induction ops generalizing poller with
  | nil => rfl
  | cons op ops ih =>
    obtain ⟨hop, hops⟩ := AddsNone.cons_iff.mp h
    rw [List.foldl_cons, ih hops, backendsAt_after hop]

/-- The calls that add a backend. -/
def added : List (PollerOp δ) → ℕ
  | [] => 0
  | .backend _ :: ops => added ops + 1
  | _ :: ops => added ops

/-- **The backends that there is room for.** -/
theorem length_foldl (ops : List (PollerOp δ)) (poller : Poller δ) :
    (ops.foldl Poller.after poller).backends.length =
      min (poller.backends.length + added ops) pollerMaxBackends := by
  induction ops generalizing poller with
  | nil => exact (Nat.min_eq_left poller.fits).symm
  | cons op ops ih =>
    rw [List.foldl_cons, ih]
    cases op with
    | setHost host =>
      have hsame : (opticsPollerSetHost poller host).2.backends = poller.backends := by
        rw [opticsPollerSetHost]
        split_ifs <;> rfl
      simp [Poller.after, hsame, added]
    | backend backend =>
      have hfits := poller.fits
      rw [Poller.after, opticsPollerBackend, added]
      split_ifs with hfull
      · dsimp only
        omega
      · simp only [List.length_append, List.length_singleton]
        omega
    | poll input => simp [Poller.after, added]

theorem Tells.length {σ : Type} {fpu : Fpu} {rng : Rng σ} {poller : Poller δ}
    {ops : List (PollerOp δ)} {outs : List (Bool × List Event)}
    (h : Tells fpu rng poller ops outs) : outs.length = ops.length := by
  induction h with
  | nil poller => rfl
  | cons hop h ih => rw [List.length_cons, List.length_cons, ih]

/-- **A backend with a context of its own hears everything from the moment it is added**: the events
of all polls, each once and in their order; and nothing if there is no room for it. -/
theorem actsAt_added {before after : List (PollerOp δ)} {backend : Backend δ}
    {outs : List (Bool × List Event)} {poller : Poller δ}
    (hlen : outs.length = (before ++ .backend backend :: after).length)
    (hnone : backendsAt backend.ctx poller.backends = [])
    (hbefore : AddsNone backend.ctx before) (hafter : AddsNone backend.ctx after) :
    actsAt backend.ctx (runCalls poller (before ++ .backend backend :: after) outs) =
      if poller.backends.length + added before < pollerMaxBackends then
        ((outs.drop (before.length + 1)).flatMap Prod.snd).map backend.call
      else [] := by
  obtain ⟨outs1, outs2, rfl, hlen1⟩ : ∃ outs1 outs2, outs = outs1 ++ outs2 ∧
      outs1.length = before.length := by
    refine ⟨outs.take before.length, outs.drop before.length, (List.take_append_drop ..).symm, ?_⟩
    rw [List.length_take, hlen, List.length_append]
    omega
  obtain _ | ⟨out, outs2⟩ := outs2
  · simp [hlen1] at hlen
  have hlen2 : outs2.length = after.length := by
    simp only [List.length_append, List.length_cons] at hlen
    omega
  have hdrop : (outs1 ++ out :: outs2).drop (before.length + 1) = outs2 := by
    rw [← hlen1, List.drop_append]
    simp
  have hthere := backendsAt_foldl hbefore poller
  rw [hnone] at hthere
  have hnone' : actsAt backend.ctx
      (callsOf (before.foldl Poller.after poller).backends out.2) = [] := by
    rw [actsAt_callsOf, hthere]
    simp
  rw [hdrop, runCalls_append hlen1, runCalls, actsAt_append, actsAt_append,
    actsAt_runCalls_none hbefore hlen1 hnone, hnone', List.nil_append, List.nil_append]
  have hroom := length_foldl before poller
  by_cases hlt : poller.backends.length + added before < pollerMaxBackends
  · -- one backend with the context from now on
    have hone : backendsAt backend.ctx
        ((before.foldl Poller.after poller).after (.backend backend)).backends = [backend] := by
      rw [Poller.after, opticsPollerBackend, dif_neg (by omega)]
      simp only [backendsAt, List.filter_append] at hthere ⊢
      rw [hthere]
      simp
    rw [if_pos hlt, actsAt_runCalls_one hafter hlen2 hone]
  · have hfull : backendsAt backend.ctx
        ((before.foldl Poller.after poller).after (.backend backend)).backends = [] := by
      rw [Poller.after, opticsPollerBackend, dif_pos (by omega)]
      exact hthere
    rw [if_neg hlt, actsAt_runCalls_none hafter hlen2 hfull]

/-- **A backend hears what the polls tell.** Of a run of a poller, a backend with a context of its
own hears the events of all polls from the moment it is added, each once and in their order, if it is
one of the first eight, and none otherwise; they alone make its context what it is in the end. -/
theorem poller_tells {σ : Type} {hash : CStr → UInt64} {fpu : Fpu} {rng : Rng σ}
    {ops : List (PollerOp δ)} {s s' : PollerState δ σ} {rets : List Bool}
    (h : pollerRun hash fpu rng ops s = .ok (rets, s')) : ∃ outs,
      Tells fpu rng s.poller ops outs ∧ rets = outs.map Prod.fst ∧
      ∀ before backend after, ops = before ++ .backend backend :: after →
        backendsAt backend.ctx s.poller.backends = [] →
        AddsNone backend.ctx before → AddsNone backend.ctx after →
        runCell (if s.poller.backends.length + added before < pollerMaxBackends then
            ((outs.drop (before.length + 1)).flatMap Prod.snd).map backend.call
          else []) (s.memory backend.ctx) = .ok (s'.memory backend.ctx) := by
  obtain ⟨outs, htell, hrets, -, hrun⟩ := pollerRun_iff.mp h
  have htells := runTell_tells htell
  refine ⟨outs, htells, hrets, ?_⟩
  rintro before backend after rfl hnone hbefore hafter
  rw [← actsAt_added htells.length hnone hbefore hafter]
  exact runAll_iff.mp hrun backend.ctx

/-- A backend that counts what it is called with. -/
def counting : Backend ℕ where
  ctx := 1
  cb ctx _ := match ctx with
    | .other n => .ok (.other (n + 1))
    | _ => .error .undefined
  free := none

/-- A poller that has just been made. -/
def freshPoller : PollerState ℕ UInt64 :=
  ⟨⟨⟨nameH, by decide⟩, [], Nat.zero_le _⟩, fun _ => some (.other 0), 1⟩

theorem runCell_counting (events : List Event) (n : ℕ) :
    runCell (events.map counting.call) (some (.other n)) =
      .ok (some (.other (n + events.length))) := by
  induction events generalizing n with
  | nil => rfl
  | cons event events ih =>
    rw [List.length_cons, Nat.add_comm events.length, ← Nat.add_assoc]
    exact ih (n + 1)

/-- The backend that counts hears of a poll of one region. -/
theorem poller_tells_counting : ∃ (outs : List (Bool × List Event)) (s' : PollerState ℕ UInt64),
    pollerRun htableHash saturating (xorshift saturating)
      [.backend counting, .poll ⟨15, [counterFile], 0⟩] freshPoller = .ok (outs.map Prod.fst, s') ∧
    runCell (((outs.drop 1).flatMap Prod.snd).map counting.call) (some (.other 0)) =
      .ok (s'.memory 1) := by
  obtain ⟨⟨out, gen'⟩, htell⟩ := tellOf_returns total_saturating (by decide)
    (apart_counterFile 15) (1 : UInt64)
  let w : Memory ℕ := Function.update freshPoller.memory 1 (some (.other (0 + out.2.length)))
  have hrun : pollerRun htableHash saturating (xorshift saturating)
      [.backend counting, .poll ⟨15, [counterFile], 0⟩] freshPoller =
        .ok ([true, out.1], ⟨freshPoller.poller.after (.backend counting), w, gen'⟩) := by
    refine pollerRun_iff.mpr ⟨[(true, []), out], ?_, rfl, rfl, ?_⟩
    · have hpoll : opTell htableHash saturating (xorshift saturating)
          (freshPoller.poller.after (.backend counting)) freshPoller.gen
          (.poll ⟨15, [counterFile], 0⟩) = .ok (out, gen') := htell
      rw [runTell, opTell, ok_bind]
      dsimp only
      rw [runTell, hpoll]
      rfl
    · refine runAll_iff.mpr fun p => ?_
      by_cases hp : p = 1
      · subst hp
        have hacts := @actsAt_added ℕ [] [.poll ⟨15, [counterFile], 0⟩] counting [(true, []), out]
          freshPoller.poller rfl rfl (by simp [AddsNone]) (by simp [AddsNone])
        rw [if_pos (by decide)] at hacts
        refine (congrArg (runCell · _) hacts).trans ?_
        simpa [w, freshPoller] using runCell_counting out.2 0
      · rw [actsAt_runCalls_none (p := p) (by simpa [AddsNone, counting] using Ne.symm hp) rfl rfl]
        simp [w, hp, runCell]
  obtain ⟨outs, htells, hrets, hheard⟩ := poller_tells hrun
  refine ⟨outs, _, hrets ▸ hrun, ?_⟩
  exact hheard [] counting [.poll ⟨15, [counterFile], 0⟩] rfl rfl (by simp [AddsNone])
    (by simp [AddsNone])

end Optics.Pollers
