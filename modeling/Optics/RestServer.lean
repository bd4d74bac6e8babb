import Optics.BackendRest
import Optics.Utils.ServerRuns

/-! # The REST backend behind its server

`optics_dump_rest` adds the table of metrics to a server under `/metrics/json`. A thread polls and tells
the backend about it, record by record; the thread of the server answers requests. The lock makes
`swap_tables` and `rest_get` single steps, and the table that is being filled belongs to the thread that
polls.

`rest_requests` is the result: a request is answered with the records of the last poll that was done by
then, all of them and no others, also while the next poll is going on. -/

namespace Optics.RestServer

open Optics.Base Optics.Lib.Blocks Optics.Lib.JsonText
open Optics.Polling Optics.BackendRest
open Optics.Utils.HtableMap Optics.Utils.HtableGrowth Optics.Utils.Responses Optics.Utils.Server

/-! ### The resource -/

/-- `/metrics/json` -/
def metricsPath : CStr := ofBytes [47, 109, 101, 116, 114, 105, 99, 115, 47, 106, 115, 111, 110]

/-- `content-type` -/
def contentType : CStr := ofBytes [99, 111, 110, 116, 101, 110, 116, 45, 116, 121, 112, 101]

/-- `text/plain` -/
def textPlain : CStr := ofBytes [116, 101, 120, 116, 47, 112, 108, 97, 105, 110]

/-- What `rest_get` does to its response. -/
def restOps (text : List UInt8) : List RespOp := [.addHeader contentType textPlain, .write text]

/-- `rest_get`, as the handler of a resource. -/
def restHandler (signs : Signs) : CrestResourceCb Unit Rest := fun _ _ rest => do
  let text ← restGet signs rest
  .ok ((.ok, restOps text), rest)

/-- The resource of `optics_dump_rest`; its context is the backend. -/
def restRes (signs : Signs) : CrestRes Unit Rest where
  path := metricsPath
  context := ()
  authorized := none
  forbidden := none
  accepts := none
  existing := none
  get := some (restHandler signs)
  put := none
  post := none
  delete := none

/-- `optics_dump_rest`, on the side of the server. -/
def opticsDumpRest (signs : Signs) (crest : Crest Unit Rest) : Crest Unit Rest :=
  (crestAdd crest (restRes signs)).2

/-- A server that only has the backend, bound to a port. -/
def restServer (signs : Signs) : Crest Unit Rest :=
  (crestBind (opticsDumpRest signs crestNew) true).2

/-! ### Two threads -/

/-- A step of one of the threads: what a poll tells the backend, or a request that is complete, with
the sign bits of the doubles that are shown then. -/
inductive RestEvent where
  | pollBegin
  | pollMetric (poll : OpticsPoll)
  | pollDone
  | request (req : CrestReq) (signs : Signs)

/-- The call of `rest_dump` in a step. -/
def dumpEvent (rest : Rest) : RestEvent → Outcome Rest
  | .pollBegin => restDump rest .pollBegin none
  | .pollMetric poll => restDump rest .pollMetric (some poll)
  | .pollDone => restDump rest .pollDone none
  | .request _ _ => .ok rest

/-- The reply in a step. -/
def serveEvent (hash : CStr → UInt64) (mhd : Mhd) (world : World Rest) :
    RestEvent → Outcome (List Reply × World Rest)
  | .request req signs => do
    let (reply, world) ← crestServe hash mhd (restServer signs) req world
    .ok ([reply], world)
  | _ => .ok ([], world)

/-- The steps in the order in which they happen, and the replies. -/
def restRun (hash : CStr → UInt64) (mhd : Mhd) :
    List RestEvent → World Rest → Outcome (List Reply × World Rest)
  | [], world => .ok ([], world)
  | event :: events, world => do
    let rest ← dumpEvent world.app event
    let (replies, world) ← serveEvent hash mhd { world with app := rest } event
    let (others, world) ← restRun hash mhd events world
    .ok (replies ++ others, world)

/-! ### What is to be seen -/

/-- The records of the last poll that is done, and those of the one that is going on. -/
structure Seen where
  last : List OpticsPoll
  next : List OpticsPoll

def Seen.after (seen : Seen) : RestEvent → Seen
  | .pollBegin => ⟨seen.last, []⟩
  | .pollMetric poll => ⟨seen.last, seen.next ++ [poll]⟩
  | .pollDone => ⟨seen.next, []⟩
  | .request _ _ => seen

/-- The records as they are shown: one entry for each, by ascending keys. -/
structure Sorted (records : List OpticsPoll) (table : List Metric) : Prop where
  perm : table.Perm (records.map metricOf)
  sorted : table.Pairwise fun a b => metricsCmp a b ≤ 0

/-- The header of a document. -/
def documentHeaders : Headers := fun k => if k = contentType then some textPlain else none

/-- A request that asks for the document. -/
def Asks (req : CrestReq) : Prop :=
  requestPath req.url = requestPath metricsPath

/-- What a request is to be answered with. -/
inductive Shows (signs : Signs) (records : List OpticsPoll) (req : CrestReq) (reply : Reply) : Prop
  | document {table} : Asks req → req.method = getText → Sorted records table →
      Gives reply ⟨200, documentHeaders, printObject (table.map (metricMember signs))⟩ →
      Shows signs records req reply
  | otherMethod : Asks req → req.method ≠ getText →
      Gives reply (.refusal 501 notImplemented) → Shows signs records req reply
  | unknown : ¬ Asks req → Gives reply (.refusal 404 unknownResource) → Shows signs records req reply

/-- The replies to the requests of some steps. -/
inductive Replies : Seen → List RestEvent → List Reply → Prop
  | nil (seen : Seen) : Replies seen [] []
  | request {seen req signs reply events replies} : Shows signs seen.last req reply →
      Replies seen events replies → Replies seen (.request req signs :: events) (reply :: replies)
  | dump {seen event events replies} : (∀ req signs, event ≠ .request req signs) →
      Replies (seen.after event) events replies → Replies seen (event :: events) replies

/-! ### The route -/

theorem pathMatches_const : ∀ {path request : Utils.Routing.Path},
    (∀ item ∈ path, Utils.Routing.pathTokenType item = .const) →
    (Utils.Routing.pathMatches path request ↔ request = path)
  | [], [], _ => by simp [Utils.Routing.pathMatches]
  | [], _ :: _, _ => by simp [Utils.Routing.pathMatches]
  | head :: tail, [], h => by
    simp [Utils.Routing.pathMatches, h head List.mem_cons_self]
  | head :: tail, item :: rest, h => by
    have ih := @pathMatches_const tail rest fun i hi => h i (List.mem_cons_of_mem _ hi)
    simp [Utils.Routing.pathMatches, h head List.mem_cons_self, ih, eq_comm]

theorem restServer_built (signs : Signs) :
    Built [(requestPath metricsPath, restRes signs)] (restServer signs) :=
  .bound (@Built.added Unit Rest [] crestNew _ (restRes signs) .new rfl)

/-- A request is routed to the backend if it asks for the document, and nowhere otherwise. -/
theorem route_restServer {signs : Signs} {req : CrestReq} {route : Option (CrestRes Unit Rest)}
    (h : Routes [(requestPath metricsPath, restRes signs)] (requestPath req.url) route) :
    (Asks req ∧ route = some (restRes signs)) ∨ (¬ Asks req ∧ route = none) := by
  have hconst : ∀ item ∈ requestPath metricsPath, Utils.Routing.pathTokenType item = .const := by decide
  have hmatch : Lib.Patterns.Matches (Utils.Routing.normalForm (requestPath metricsPath))
      (requestPath req.url) ↔ Asks req :=
    (Utils.Routing.pathMatches_iff _ _).symm.trans (pathMatches_const hconst)
  obtain ⟨dict, hdict, hfinds⟩ := h
  rcases route with _ | res
  · refine .inr ⟨fun hasks => ?_, rfl⟩
    exact hfinds _ (restRes signs) ((hdict _ _).mpr ⟨_, List.mem_singleton_self _, rfl, rfl⟩) (hmatch.mpr hasks)
  · obtain ⟨p, hp, hm, -⟩ := hfinds
    obtain ⟨a, ha, rfl, rfl⟩ := (hdict _ _).mp hp
    rw [List.mem_singleton.mp ha] at hm ⊢
    exact .inl ⟨hmatch.mp hm, rfl⟩

/-! ### One request -/

/-- The tables of a backend: what is shown, and what is being filled. -/
structure Tables (seen : Seen) (rest : Rest) : Prop where
  current : Sorted seen.last (entries rest.current)
  build : entries rest.build = seen.next.map metricOf

theorem tables_zero : Tables ⟨[], []⟩ Rest.zero := ⟨⟨.refl _, .nil⟩, rfl⟩

/-- The records of both polls have shapes that can be printed. -/
def AllShaped (seen : Seen) : Prop := ∀ poll ∈ seen.last ++ seen.next, Shaped poll.value

theorem Tables.restGet {seen : Seen} {rest : Rest} (h : Tables seen rest) (hs : AllShaped seen)
    (signs : Signs) :
    restGet signs rest = .ok (printObject ((entries rest.current).map (metricMember signs))) := by
  refine restGet_spec signs fun m hm => ?_
  obtain ⟨poll, hpoll, rfl⟩ := List.mem_map.mp (h.current.perm.mem_iff.mp hm)
  exact hs poll (List.mem_append_left _ hpoll)

theorem method_get {req : CrestReq} : crestReqGetMethod req = .get ↔ req.method = getText := by
  have hget : isMethod req.method getText = true ↔ req.method = getText := isMethod_iff
  unfold crestReqGetMethod
  split_ifs <;> simp_all

theorem handler_restRes {signs : Signs} {m : CrestMethod} {cb : CrestResourceCb Unit Rest}
    (h : (restRes signs).handler m = some cb) : m = .get ∧ cb = restHandler signs := by
  cases m <;> cases h
  exact ⟨rfl, rfl⟩

theorem headersOf_restOps (text : List UInt8) : headersOf (restOps text) = documentHeaders := rfl

theorem textOf_restOps (text : List UInt8) : textOf (restOps text) = text := by
  simp [textOf, restOps, RespOp.text]

theorem gates_restRes (signs : Signs) : ∀ gate ∈ (restRes signs).gates, gate.cb = none := by
  simp [CrestRes.gates, restRes]

theorem admits_missing {κ τ : Type} {context : κ} {req : CrestReq} {gates : List (Gate κ τ)}
    {app app' : τ} (h : Admits context req gates app app') (hnone : ∀ gate ∈ gates, gate.cb = none) :
    app' = app := by
  induction h with
  | nil app => rfl
  | missing _ ih => exact ih fun gate hgate => hnone gate (List.mem_cons_of_mem _ hgate)
  | passed => cases hnone _ List.mem_cons_self

/-- **An answer of the backend** is the document of what it shows, and leaves it as it is. -/
theorem answers_shows {signs : Signs} {seen : Seen} {req : CrestReq} {route : Option (CrestRes Unit Rest)}
    {rest rest' : Rest} {answer : Answer} {reply : Reply} (ht : Tables seen rest) (hs : AllShaped seen)
    (hroute : Routes [(requestPath metricsPath, restRes signs)] (requestPath req.url) route)
    (h : Answers req route rest answer rest') (hg : Gives reply answer) :
    rest' = rest ∧ Shows signs seen.last req reply := by
  rcases route_restServer hroute with ⟨hasks, rfl⟩ | ⟨hasks, rfl⟩
  · cases h with
    | noHandler hnone =>
      refine ⟨rfl, .otherMethod hasks (fun hm => ?_) hg⟩
      rw [method_get.mpr hm] at hnone
      cases hnone
    | @refused _ _ _ _ _ before gate cb after _ hgates hcb _ _ =>
      have hmem : gate ∈ (restRes signs).gates := by
        rw [hgates]
        simp
      rw [gates_restRes signs gate hmem] at hcb
      cases hcb
    | misplaced hhandler _ hpasses hsettle =>
      obtain ⟨hm, -⟩ := handler_restRes hhandler
      cases hpasses
      rw [hm] at hsettle
      cases hsettle
    | handled hhandler hadmits hpasses hsettle hcall htold =>
      obtain ⟨hm, rfl⟩ := handler_restRes hhandler
      cases hpasses
      rw [hm] at hsettle
      cases hsettle
      rw [admits_missing hadmits (gates_restRes signs), restHandler, ht.restGet hs, ok_bind] at hcall
      cases hcall
      cases htold
      rw [headersOf_restOps, textOf_restOps, List.append_nil] at hg
      exact ⟨rfl, .document hasks (method_get.mp hm) ht.current hg⟩
  · cases h with
    | unknown => exact ⟨rfl, .unknown hasks hg⟩

/-- **The backend is sound** as long as what it shows can be printed. -/
theorem sound_restRes {hash : CStr → UInt64} (signs : Signs) :
    Sound hash (fun rest => ∀ m ∈ entries rest.current, Shaped m.value) (restRes signs) := by
  refine ⟨fun cb hcb req app happ => ?_, fun {m cb} hcb req app happ => ?_⟩
  · have hnone : cb = none := by simpa [CrestRes.tests, restRes] using hcb
    rw [hnone]
    exact happ
  · obtain ⟨-, rfl⟩ := handler_restRes hcb
    refine ⟨.ok, restOps (printObject ((entries app.current).map (metricMember signs))), app, ?_,
      happ, fun _ => rfl, 0, by decide, fun k hk k' hk' _ => ?_⟩
    · rw [restHandler, restGet_spec signs happ, ok_bind]
    · have hone : ∀ text, ∀ k ∈ Utils.Responses.keysOf (restOps text), k = clip contentType := by
        simp [Utils.Responses.keysOf, restOps]
      rw [hone _ k hk, hone _ k' hk']

/-! ### All steps -/

/-- **A step of the poll** does to the tables what it does to the records. -/
theorem dumpEvent_spec {seen : Seen} {rest : Rest} (h : Tables seen rest) (event : RestEvent) :
    ∃ rest', dumpEvent rest event = .ok rest' ∧ Tables (seen.after event) rest' := by
  cases event with
  | pollBegin => exact ⟨_, rfl, h.current, rfl⟩
  | pollMetric poll =>
    obtain ⟨build, happend, hdata⟩ := metricsAppend_spec rest.build poll
    refine ⟨{ rest with build := some build }, by rw [dumpEvent, restDump, happend, ok_bind],
      h.current, ?_⟩
    change build.data = (seen.next ++ [poll]).map metricOf
    rw [hdata, h.build, List.map_append]
    rfl
  | pollDone =>
    obtain ⟨rest', hswap, hbuild, hperm, hsorted⟩ := swapTables_spec rest
    refine ⟨rest', hswap, ⟨?_, hsorted⟩, by rw [hbuild]; rfl⟩
    change (entries rest'.current).Perm (seen.next.map metricOf)
    rw [← h.build]
    exact hperm
  | request req signs => exact ⟨rest, rfl, h⟩

/-- The records that a step brings have shapes that can be printed. -/
def RestEvent.Shaped : RestEvent → Prop
  | .pollMetric poll => BackendRest.Shaped poll.value
  | _ => True

theorem AllShaped.after {seen : Seen} (h : AllShaped seen) {event : RestEvent} (he : event.Shaped) :
    AllShaped (seen.after event) := by
  intro poll hpoll
  rcases event with _ | new | _ | ⟨req, signs⟩
  · exact h poll (by simp [Seen.after] at hpoll ⊢; exact .inl hpoll)
  · simp only [Seen.after, List.mem_append, List.mem_singleton] at hpoll
    rcases hpoll with hpoll | hpoll | rfl
    · exact h poll (List.mem_append_left _ hpoll)
    · exact h poll (List.mem_append_right _ hpoll)
    · exact he
  · exact h poll (by simp [Seen.after] at hpoll ⊢; exact .inr hpoll)
  · exact h poll hpoll

section Runs
variable {hash : CStr → UInt64} {mhd : Mhd} {seen : Seen} {world : World Rest}

theorem serveEvent_dump {event : RestEvent} (h : ∀ req signs, event ≠ .request req signs) :
    serveEvent hash mhd world event = .ok ([], world) := by
  rcases event with _ | poll | _ | ⟨req, signs⟩
  · rfl
  · rfl
  · rfl
  · exact absurd rfl (h req signs)

/-- **A request that is served** shows the last poll that is done. -/
theorem crestServe_shows {signs : Signs} {req : CrestReq} {reply : Reply} {world' : World Rest}
    (hf : Fresh world.heap) (ht : Tables seen world.app) (hs : AllShaped seen)
    (h : crestServe hash mhd (restServer signs) req world = .ok (reply, world')) :
    Shows signs seen.last req reply ∧ world'.app = world.app ∧ Grown world.heap world'.heap ∅ := by
  obtain ⟨answer, hanswers, hgives, hg⟩ := crestServe_spec (restServer signs) hf h
  obtain ⟨happ, hshows⟩ := answers_shows ht hs ((restServer_built signs).routes _) hanswers hgives
  exact ⟨hshows, happ, hg⟩

theorem restRun_replies : ∀ {events : List RestEvent} {seen : Seen} {world world' : World Rest}
    {replies : List Reply}, restRun hash mhd events world = .ok (replies, world') →
    Fresh world.heap → Tables seen world.app → AllShaped seen → (∀ event ∈ events, event.Shaped) →
      Replies seen events replies ∧ Grown world.heap world'.heap ∅
  | [], seen, world, world', replies, h, hf, _, _, _ => by
    cases h
    exact ⟨.nil seen, Grown.refl hf⟩
  | event :: events, seen, world, world', replies, h, hf, ht, hs, hevents => by
    have he := hevents event List.mem_cons_self
    have hrest : ∀ e ∈ events, e.Shaped := fun e hmem => hevents e (List.mem_cons_of_mem _ hmem)
    obtain ⟨rest1, hdump, ht1⟩ := dumpEvent_spec ht event
    rw [restRun, hdump, ok_bind] at h
    obtain ⟨⟨replies1, world1⟩, hserve, h⟩ := Base.bind_eq_ok.mp h
    obtain ⟨⟨replies2, world2⟩, hrun, h⟩ := Base.bind_eq_ok.mp h
    cases h
    by_cases hreq : ∃ req signs, event = .request req signs
    · obtain ⟨req, signs, rfl⟩ := hreq
      cases hdump
      obtain ⟨⟨reply, world3⟩, hcrest, hserve⟩ := Base.bind_eq_ok.mp hserve
      cases hserve
      obtain ⟨hshows, happ, hg⟩ := crestServe_shows hf ht hs hcrest
      obtain ⟨hreplies, hg2⟩ := restRun_replies hrun hg.fresh (happ ▸ ht) hs hrest
      exact ⟨.request hshows hreplies, hg.trans hg2⟩
    · have hdumps : ∀ req signs, event ≠ .request req signs :=
        fun req signs hc => hreq ⟨req, signs, hc⟩
      rw [serveEvent_dump hdumps] at hserve
      cases hserve
      obtain ⟨hreplies, hg⟩ := restRun_replies hrun hf ht1 (hs.after he) hrest
      exact ⟨.dump hdumps hreplies, hg⟩

theorem restRun_returns (hw : mhd.Willing) : ∀ {events : List RestEvent} {seen : Seen}
    (world : World Rest), Fresh world.heap → Tables seen world.app → AllShaped seen →
    (∀ event ∈ events, event.Shaped) → ∃ r, restRun hash mhd events world = .ok r
  | [], seen, world, _, _, _, _ => ⟨([], world), rfl⟩
  | event :: events, seen, world, hf, ht, hs, hevents => by
    have he := hevents event List.mem_cons_self
    have hrest : ∀ e ∈ events, e.Shaped := fun e hmem => hevents e (List.mem_cons_of_mem _ hmem)
    obtain ⟨rest1, hdump, ht1⟩ := dumpEvent_spec ht event
    rw [restRun, hdump, ok_bind]
    by_cases hreq : ∃ req signs, event = .request req signs
    · obtain ⟨req, signs, rfl⟩ := hreq
      cases hdump
      have hshaped : ∀ m ∈ entries world.app.current, Shaped m.value := fun m hm => by
        obtain ⟨poll, hpoll, rfl⟩ := List.mem_map.mp (ht.current.perm.mem_iff.mp hm)
        exact hs poll (List.mem_append_left _ hpoll)
      obtain ⟨⟨reply, world1⟩, hserve⟩ := crestServe_returns (restServer signs) req hf hw hshaped
        fun res hroute => by
          obtain ⟨a, ha, rfl⟩ := (hroute ▸ (restServer_built signs).routes (requestPath req.url) :
            Routes _ _ (some res)).mem
          rw [List.mem_singleton.mp ha]
          exact @sound_restRes hash signs
      obtain ⟨-, happ, hg⟩ := crestServe_shows hf ht hs hserve
      obtain ⟨r, hrun⟩ := restRun_returns hw world1 hg.fresh (happ ▸ ht) hs hrest
      rw [serveEvent, hserve, ok_bind, ok_bind]
      dsimp only
      rw [hrun]
      exact ⟨_, rfl⟩
    · rw [serveEvent_dump fun req signs hc => hreq ⟨req, signs, hc⟩, ok_bind]
      dsimp only
      obtain ⟨r, hrun⟩ := restRun_returns hw { world with app := rest1 } hf ht1 (hs.after he) hrest
      rw [hrun]
      exact ⟨_, rfl⟩

end Runs

/-- **A request shows the last poll that is done**, whole. In whichever order the thread that polls and
the thread of the server take their steps, a `GET` of `/metrics/json` is answered with a document that
has a member for each record of the last poll that has been done, by ascending keys, and not with
records of the poll that is going on; other methods and other paths are refused. The steps return if
`libmicrohttpd` agrees. -/
theorem rest_requests (hash : CStr → UInt64) (mhd : Mhd) {events : List RestEvent}
    (hevents : ∀ event ∈ events, event.Shaped) :
    (∀ replies world', restRun hash mhd events ⟨.empty, Rest.zero⟩ = .ok (replies, world') →
      Replies ⟨[], []⟩ events replies ∧ ∀ data, world'.heap.cell data = none) ∧
    (mhd.Willing → ∃ r, restRun hash mhd events ⟨.empty, Rest.zero⟩ = .ok r) := by
  have hs : AllShaped ⟨[], []⟩ := fun poll hpoll => absurd hpoll List.not_mem_nil
  refine ⟨fun replies world' hrun => ?_, fun hw => restRun_returns hw _ fresh_empty tables_zero hs hevents⟩
  obtain ⟨hreplies, hg⟩ := restRun_replies hrun fresh_empty tables_zero hs hevents
  exact ⟨hreplies, fun data => hg.frame data (Set.notMem_empty data)⟩

/-- A `GET` of the document. -/
def documentReq : CrestReq := ⟨1, metricsPath, getText, fun _ => none, ⟨[], 0, 0⟩⟩

/-- A record of a counter. -/
def counterRecord (n : UInt64) : OpticsPoll where
  host := nameA
  regionPrefix := nameA
  key := nameA
  value := .counter n
  ts := 0
  elapsed := 0

/-- A request in the middle of the second poll. -/
def middleEvents : List RestEvent :=
  [.pollBegin, .pollMetric (counterRecord 1), .pollDone, .pollBegin, .pollMetric (counterRecord 2),
    .request documentReq .clear]

theorem rest_requests_middle : ∃ replies world', restRun Utils.Htables.htableHash
      Utils.ServerRuns.agreeing middleEvents ⟨.empty, Rest.zero⟩ = .ok (replies, world') ∧
    Replies ⟨[], []⟩ middleEvents replies := by
  have hevents : ∀ event ∈ middleEvents, event.Shaped := by
    simp [middleEvents, RestEvent.Shaped, counterRecord, Shaped]
  obtain ⟨hreplies, hreturns⟩ := rest_requests Utils.Htables.htableHash Utils.ServerRuns.agreeing hevents
  obtain ⟨⟨replies, world'⟩, hrun⟩ := hreturns ⟨fun _ => rfl, fun _ _ _ => rfl, fun _ _ => rfl⟩
  exact ⟨replies, world', hrun, (hreplies replies world' hrun).1⟩

end Optics.RestServer
