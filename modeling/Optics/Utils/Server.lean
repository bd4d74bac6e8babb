import Optics.Lib.ByteOrder
import Optics.Utils.Bodies
import Optics.Utils.Paths
import Optics.Utils.Responses
import Mathlib.Data.List.TakeWhile

/-! # The server

`utils/crest/crest.c` and the requests of `utils/crest/req.c`. `crest_process` finds the resource of a
request, asks its tests one after the other and calls the handler of the method.

`Answers` says what a request is to be answered with and which callbacks have been called by then;
`crestProcess_spec` that the function does so, and that it returns unless `libmicrohttpd` refuses or a
handler does not return a result. A callback is a function of the context of its resource, the request
and the state of the application; what a handler does to its response is a list of calls. -/

namespace Optics.Utils.Server

open Optics.Base Optics.Lib.Blocks Optics.Lib.ByteOrder Optics.Lib.Patterns
open Optics.Utils.HtableGrowth Optics.Utils.Responses

/-! ### Texts -/

/-- The string that some bytes begin with. -/
def ofBytes (l : List UInt8) : CStr :=
  ⟨l.takeWhile (· ≠ 0), fun h => by simpa using List.mem_takeWhile_imp h⟩

/-- `GET` -/
def getText : CStr := ofBytes [71, 69, 84]

/-- `POST` -/
def postText : CStr := ofBytes [80, 79, 83, 84]

/-- `PUT` -/
def putText : CStr := ofBytes [80, 85, 84]

/-- `DELETE` -/
def deleteText : CStr := ofBytes [68, 69, 76, 69, 84, 69]

/-- `unknown resource` -/
def unknownResource : CStr :=
  ofBytes [117, 110, 107, 110, 111, 119, 110, 32, 114, 101, 115, 111, 117, 114, 99, 101]

/-- `not implemented` -/
def notImplemented : CStr :=
  ofBytes [110, 111, 116, 32, 105, 109, 112, 108, 101, 109, 101, 110, 116, 101, 100]

/-- `unauthorized` -/
def unauthorizedText : CStr := ofBytes [117, 110, 97, 117, 116, 104, 111, 114, 105, 122, 101, 100]

/-- `forbidden` -/
def forbiddenText : CStr := ofBytes [102, 111, 114, 98, 105, 100, 100, 101, 110]

/-- `not acceptable` -/
def notAcceptable : CStr :=
  ofBytes [110, 111, 116, 32, 97, 99, 99, 101, 112, 116, 97, 98, 108, 101]

/-- `resource already exists` -/
def alreadyExists : CStr :=
  ofBytes [114, 101, 115, 111, 117, 114, 99, 101, 32, 97, 108, 114, 101, 97, 100, 121, 32, 101, 120, 105,
    115, 116, 115]

/-- `resource doesn't exist` -/
def doesntExist : CStr :=
  ofBytes [114, 101, 115, 111, 117, 114, 99, 101, 32, 100, 111, 101, 115, 110, 39, 116, 32, 101, 120, 105,
    115, 116]

/-- `internal server error` -/
def internalServerError : CStr :=
  ofBytes [105, 110, 116, 101, 114, 110, 97, 108, 32, 115, 101, 114, 118, 101, 114, 32, 101, 114, 114, 111,
    114]

/-- `conflict` -/
def conflictText : CStr := ofBytes [99, 111, 110, 102, 108, 105, 99, 116]

/-! ### Requests -/

/-- `enum crest_method`. -/
inductive CrestMethod where
  | get | put | post | delete | unsupported
  deriving DecidableEq, Repr

/-- `struct crest_req`; `header` is what `libmicrohttpd` looks up in the connection. -/
structure CrestReq where
  conn : ℕ
  url : CStr
  method : CStr
  header : CStr → Option CStr
  body : Bodies.Req

/-- `is_method`: the comparison goes over the terminator of the literal. -/
def isMethod (value method : CStr) : Bool :=
  strncmp (method.val.length + 1) method.val value.val = 0

/-- `crest_req_get_method`. -/
def crestReqGetMethod (req : CrestReq) : CrestMethod :=
  if isMethod req.method getText then .get
  else if isMethod req.method postText then .post
  else if isMethod req.method putText then .put
  else if isMethod req.method deleteText then .delete
  else .unsupported

/-- The items of the path that `path_new` makes. -/
def requestPath (url : CStr) : Routing.Path :=
  (Paths.tokens url).attachWith (fun t => (0 : UInt8) ∉ t) fun _ => Paths.zero_notMem_token

/-- `crest_req_get_path`, which makes the path of the URL once. -/
def crestReqGetPath (req : CrestReq) : Routing.Path := requestPath req.url

/-! ### Resources -/

/-- `enum crest_result`, an `int`. -/
inductive CrestResult where
  | ok | err | conflict
  | unknown (value : ℤ)

section Resources
variable (κ τ : Type)

/-- `crest_test_cb_t`. -/
abbrev CrestTestCb := κ → CrestReq → τ → Bool × τ

/-- `crest_resource_cb_t`. -/
abbrev CrestResourceCb := κ → CrestReq → τ → Outcome ((CrestResult × List RespOp) × τ)

/-- `struct crest_res`. -/
structure CrestRes where
  path : CStr
  context : κ
  authorized : Option (CrestTestCb κ τ)
  forbidden : Option (CrestTestCb κ τ)
  accepts : Option (CrestTestCb κ τ)
  existing : Option (CrestTestCb κ τ)
  get : Option (CrestResourceCb κ τ)
  put : Option (CrestResourceCb κ τ)
  post : Option (CrestResourceCb κ τ)
  delete : Option (CrestResourceCb κ τ)

/-- `struct crest`. -/
structure Crest where
  router : Routing.Router (CrestRes κ τ)
  started : Bool

end Resources

variable {κ τ : Type}

/-- `crest_new`. -/
def crestNew : Crest κ τ := ⟨.zero, false⟩

/-- `crest_add`. -/
def crestAdd (crest : Crest κ τ) (res : CrestRes κ τ) : Bool × Crest κ τ :=
  if crest.started then (false, crest)
  else
    let (ret, router) := Routing.routerAdd res (requestPath res.path) crest.router
    (ret, { crest with router := router })

/-- `crest_bind`, with a daemon if one could be started. -/
def crestBind (crest : Crest κ τ) (daemon : Bool) : Bool × Crest κ τ :=
  if daemon then (true, { crest with started := true }) else (false, crest)

/-- The switch over the method. -/
def CrestRes.handler (res : CrestRes κ τ) : CrestMethod → Option (CrestResourceCb κ τ)
  | .get => res.get
  | .put => res.put
  | .post => res.post
  | .delete => res.delete
  | .unsupported => none

/-! ### Processing -/

/-- The heap and the state of the application. -/
structure World (τ : Type) where
  heap : Heap CStr
  app : τ

/-- `!cb || cb(res->context, req)`. -/
def passes (cb : Option (CrestTestCb κ τ)) (context : κ) (req : CrestReq) (app : τ) : Bool × τ :=
  match cb with
  | none => (true, app)
  | some cb => cb context req app

section Process
variable (hash : CStr → UInt64) (mhd : Mhd)

/-- `crest_resp_send_error`, with the world behind it. -/
def refuse (req : CrestReq) (resp : CrestResp) (world : World τ) (code : ℕ) (reason : CStr) :
    Outcome (CrestResp × Reply × World τ) := do
  let (resp, reply) ← crestRespSendError mhd req.conn resp world.heap code reason
  .ok (resp, reply, world)

/-- `crest_call_cb`. -/
def crestCallCb (req : CrestReq) (resp : CrestResp) (res : CrestRes κ τ) (cb : CrestResourceCb κ τ)
    (code : ℕ) (world : World τ) : Outcome (CrestResp × Reply × World τ) := do
  let ((result, ops), app) ← cb res.context req world.app
  let (resp, heap) ← respond hash ops resp world.heap
  let world : World τ := ⟨heap, app⟩
  match result with
  | .ok => do
    let (resp, reply) ← crestRespSend mhd req.conn resp heap code
    .ok (resp, reply, world)
  | .err => refuse mhd req resp world 500 internalServerError
  | .conflict => refuse mhd req resp world 409 conflictText
  | .unknown _ => .error .abort

/-- `crest_process`. -/
def crestProcess (crest : Crest κ τ) (req : CrestReq) (resp : CrestResp) (world : World τ) :
    Outcome (CrestResp × Reply × World τ) :=
  match Routing.routerRoute crest.router (crestReqGetPath req) with
  | none => refuse mhd req resp world 404 unknownResource
  | some res =>
    let method := crestReqGetMethod req
    match res.handler method with
    | none => refuse mhd req resp world 501 notImplemented
    | some cb =>
      let (authorized, app) := passes res.authorized res.context req world.app
      if !authorized then refuse mhd req resp { world with app := app } 401 unauthorizedText
      else
        let (allowed, app) := passes res.forbidden res.context req app
        if !allowed then refuse mhd req resp { world with app := app } 403 forbiddenText
        else
          let (accepted, app) := passes res.accepts res.context req app
          if !accepted then refuse mhd req resp { world with app := app } 406 notAcceptable
          else
            let (there, app) := passes res.existing res.context req app
            let world := { world with app := app }
            if there then
              match method with
              | .get => crestCallCb hash mhd req resp res cb 200 world
              | .post => crestCallCb hash mhd req resp res cb 204 world
              | .delete => crestCallCb hash mhd req resp res cb 204 world
              | .put => refuse mhd req resp world 409 alreadyExists
              | .unsupported => .error .abort
            else
              match method with
              | .put => crestCallCb hash mhd req resp res cb 201 world
              | .post => crestCallCb hash mhd req resp res cb 201 world
              | .get => refuse mhd req resp world 404 doesntExist
              | .delete => refuse mhd req resp world 404 doesntExist
              | .unsupported => .error .abort

/-- `microhttpd_cb` from `crest_process` on. -/
def crestServe (crest : Crest κ τ) (req : CrestReq) (world : World τ) : Outcome (Reply × World τ) := do
  let (resp, reply, world) ← crestProcess hash mhd crest req CrestResp.zero world
  let (_, heap) ← crestRespFree resp world.heap
  .ok (reply, { world with heap := heap })

end Process

/-! ### What a request is answered with -/

/-- A status code, headers and a body. -/
structure Answer where
  code : ℕ
  headers : Headers
  text : List UInt8

/-- An answer that no handler has written to. -/
def Answer.refusal (code : ℕ) (reason : CStr) : Answer := ⟨code, fun _ => none, reason.val⟩

/-- A test with what a request that fails it is told. -/
structure Gate (κ τ : Type) where
  cb : Option (CrestTestCb κ τ)
  code : ℕ
  reason : CStr

/-- The tests in their order. -/
def CrestRes.gates (res : CrestRes κ τ) : List (Gate κ τ) :=
  [⟨res.authorized, 401, unauthorizedText⟩, ⟨res.forbidden, 403, forbiddenText⟩,
    ⟨res.accepts, 406, notAcceptable⟩]

/-- Tests that let a request pass, one after the other; those that are missing are not called. -/
inductive Admits (context : κ) (req : CrestReq) : List (Gate κ τ) → τ → τ → Prop
  | nil (app : τ) : Admits context req [] app app
  | missing {code reason gates app app'} : Admits context req gates app app' →
      Admits context req (⟨none, code, reason⟩ :: gates) app app'
  | passed {cb code reason gates app app1 app'} : cb context req app = (true, app1) →
      Admits context req gates app1 app' → Admits context req (⟨some cb, code, reason⟩ :: gates) app app'

/-- What a method does to a resource that is there or is not: the code of its success, or why it is not
called. -/
def CrestMethod.settle : CrestMethod → Bool → ℕ ⊕ ℕ × CStr
  | .get, true => .inl 200
  | .get, false => .inr (404, doesntExist)
  | .put, true => .inr (409, alreadyExists)
  | .put, false => .inl 201
  | .post, true => .inl 204
  | .post, false => .inl 201
  | .delete, true => .inl 204
  | .delete, false => .inr (404, doesntExist)
  | .unsupported, _ => .inr (501, notImplemented)

/-- What a result makes of the code, and what is put behind the body. -/
def CrestResult.told (code : ℕ) : CrestResult → Option (ℕ × List UInt8)
  | .ok => some (code, [])
  | .err => some (500, internalServerError.val)
  | .conflict => some (409, conflictText.val)
  | .unknown _ => none

/-- The answer to a request for a resource, from one state of the application to the next. -/
inductive Answers (req : CrestReq) : Option (CrestRes κ τ) → τ → Answer → τ → Prop
  | unknown (app : τ) : Answers req none app (.refusal 404 unknownResource) app
  | noHandler {res app} : res.handler (crestReqGetMethod req) = none →
      Answers req (some res) app (.refusal 501 notImplemented) app
  | refused {res handler app app1 app' before gate cb after} :
      res.handler (crestReqGetMethod req) = some handler →
      res.gates = before ++ gate :: after → gate.cb = some cb →
      Admits res.context req before app app1 → cb res.context req app1 = (false, app') →
      Answers req (some res) app (.refusal gate.code gate.reason) app'
  | misplaced {res handler app app1 app' there code reason} :
      res.handler (crestReqGetMethod req) = some handler →
      Admits res.context req res.gates app app1 →
      passes res.existing res.context req app1 = (there, app') →
      (crestReqGetMethod req).settle there = .inr (code, reason) →
      Answers req (some res) app (.refusal code reason) app'
  | handled {res handler app app1 app2 app' there code result ops code' reason} :
      res.handler (crestReqGetMethod req) = some handler →
      Admits res.context req res.gates app app1 →
      passes res.existing res.context req app1 = (there, app2) →
      (crestReqGetMethod req).settle there = .inl code →
      handler res.context req app2 = .ok ((result, ops), app') →
      result.told code = some (code', reason) →
      Answers req (some res) app ⟨code', headersOf ops, textOf ops ++ reason⟩ app'

/-- A reply that has been queued gives the answer. -/
def Gives (reply : Reply) (answer : Answer) : Prop :=
  reply.code = answer.code ∧ reply.response.Has answer.headers answer.text

/-- The tests of a resource. -/
def CrestRes.tests (res : CrestRes κ τ) : List (Option (CrestTestCb κ τ)) :=
  [res.authorized, res.forbidden, res.accepts, res.existing]

/-- Callbacks that keep an invariant of the application; a handler returns a result, and its headers find
a place in the table. -/
structure Sound (hash : CStr → UInt64) (I : τ → Prop) (res : CrestRes κ τ) : Prop where
  tests : ∀ cb ∈ res.tests, ∀ req app, I app → I (passes cb res.context req app).2
  handlers : ∀ {m cb}, res.handler m = some cb → ∀ req app, I app → ∃ result ops app',
    cb res.context req app = .ok ((result, ops), app') ∧ I app' ∧
      (∀ code, (CrestResult.told code result).isSome) ∧ ∃ n < 64, Apart hash n (keysOf ops)

/-! ### Methods and paths -/

theorem isMethod_iff {value method : CStr} : isMethod value method = true ↔ value = method := by
  have hself : method.val.take (method.val.length + 1) = method.val :=
    List.take_of_length_le (Nat.le_succ _)
  rw [isMethod, decide_eq_true_iff, strncmp_eq_zero_iff method.property value.property, hself]
  constructor
  · intro h
    have hlen := congrArg List.length h
    rw [List.length_take] at hlen
    rw [List.take_of_length_le (by omega)] at h
    exact Subtype.ext h.symm
  · rintro rfl
    exact hself.symm

/-- The path that `path_new` makes is the list of its items. -/
theorem represents_requestPath (block : Lib.Bytes.Mem) (url : CStr) : ∃ copy path,
    Paths.pathNew block url = .ok path ∧ path.raw = some copy ∧
      Paths.Represents copy path (requestPath url) := by
  obtain ⟨copy, path, l, hnew, hraw, hrep, hl⟩ := Paths.represents_pathNew block url
  have heq : l = requestPath url := by
    refine List.map_injective_iff.mpr Subtype.val_injective ?_
    rw [hl, requestPath, List.attachWith_map_subtype_val]
  exact ⟨copy, path, hnew, hraw, heq ▸ hrep⟩

/-! ### Resources that have been added -/

/-- The resources that calls of `crest_add` have left in a server. -/
inductive Built : List (Routing.Path × CrestRes κ τ) → Crest κ τ → Prop
  | new : Built [] crestNew
  | added {accepted crest crest' res} : Built accepted crest → crestAdd crest res = (true, crest') →
      Built (accepted ++ [(requestPath res.path, res)]) crest'
  | refused {accepted crest crest' res} : Built accepted crest → crestAdd crest res = (false, crest') →
      Built accepted crest'
  | bound {accepted crest daemon} : Built accepted crest → Built accepted (crestBind crest daemon).2

theorem crestAdd_of_started {crest : Crest κ τ} (h : crest.started = true) (res : CrestRes κ τ) :
    crestAdd crest res = (false, crest) := if_pos h

theorem crestAdd_of_not_started {crest : Crest κ τ} (h : ¬ crest.started = true) (res : CrestRes κ τ) :
    crestAdd crest res = ((Routing.routerAdd res (requestPath res.path) crest.router).1,
      { crest with router := (Routing.routerAdd res (requestPath res.path) crest.router).2 }) :=
  if_neg h

/-- **The router holds what has been added.** -/
theorem Built.holds {accepted : List (Routing.Path × CrestRes κ τ)} {crest : Crest κ τ}
    (h : Built accepted crest) : Routing.Holds accepted crest.router := by
  induction h with
  | new => exact Routing.holds_zero
  | @added accepted crest crest' res _ hadd ih =>
    by_cases hs : crest.started = true
    · rw [crestAdd_of_started hs] at hadd
      cases (Prod.mk.inj hadd).1
    · rw [crestAdd_of_not_started hs] at hadd
      obtain ⟨hret, rfl⟩ := Prod.mk.inj hadd
      rcases ih.add (requestPath res.path) res with ⟨h1, -⟩ | ⟨-, -, h2⟩
      · rw [h1] at hret
        cases hret
      · exact h2
  | @refused accepted crest crest' res _ hadd ih =>
    by_cases hs : crest.started = true
    · rw [crestAdd_of_started hs] at hadd
      exact (Prod.mk.inj hadd).2 ▸ ih
    · rw [crestAdd_of_not_started hs] at hadd
      obtain ⟨hret, rfl⟩ := Prod.mk.inj hadd
      rcases ih.add (requestPath res.path) res with ⟨-, h2, -⟩ | ⟨h1, -⟩
      · dsimp only
        rw [h2]
        exact ih
      · rw [h1] at hret
        cases hret
  | @bound accepted crest daemon _ ih =>
    unfold crestBind
    split_ifs <;> exact ih

/-- The resource that a request is routed to: the one of the least pattern that matches. -/
def Routes (accepted : List (Routing.Path × CrestRes κ τ)) (request : Routing.Path)
    (route : Option (CrestRes κ τ)) : Prop :=
  ∃ dict : Dict CStr (CrestRes κ τ),
    (∀ p res, dict p = some res ↔ ∃ a ∈ accepted, Routing.normalForm a.1 = p ∧ a.2 = res) ∧
      Finds dict request route

theorem Built.routes {accepted : List (Routing.Path × CrestRes κ τ)} {crest : Crest κ τ}
    (h : Built accepted crest) (request : Routing.Path) :
    Routes accepted request (Routing.routerRoute crest.router request) :=
  ⟨crest.router.dict, h.holds.get, Routing.routerRoute_finds _ _⟩

theorem Routes.mem {accepted : List (Routing.Path × CrestRes κ τ)} {request : Routing.Path}
    {res : CrestRes κ τ} (h : Routes accepted request (some res)) : ∃ a ∈ accepted, a.2 = res := by
  obtain ⟨dict, hdict, p, hp, -⟩ := h
  obtain ⟨a, ha, -, hres⟩ := (hdict p res).mp hp
  exact ⟨a, ha, hres⟩

/-! ### Processing a request -/

section Specs
variable {hash : CStr → UInt64} {mhd : Mhd} {req : CrestReq} {route : Option (CrestRes κ τ)}
  {world world1 : World τ} {resp : CrestResp} {context : κ} {app app1 app' : τ}

theorem Admits.step {cb : Option (CrestTestCb κ τ)} {code : ℕ} {reason : CStr} {gates : List (Gate κ τ)}
    (hcb : passes cb context req app = (true, app1)) (h : Admits context req gates app1 app') :
    Admits context req (⟨cb, code, reason⟩ :: gates) app app' := by
  rcases cb with _ | cb
  · cases hcb
    exact .missing h
  · exact .passed hcb h

theorem passes_false {cb : Option (CrestTestCb κ τ)} (h : passes cb context req app = (false, app1)) :
    ∃ c, cb = some c ∧ c context req app = (false, app1) := by
  rcases cb with _ | c
  · cases h
  · exact ⟨c, rfl, h⟩

/-- What may become of a request: an answer has been queued, or the process is aborted and there is a
reason. -/
inductive Processed (hash : CStr → UInt64) (mhd : Mhd) (req : CrestReq) (route : Option (CrestRes κ τ))
    (world : World τ) : Outcome (CrestResp × Reply × World τ) → Prop
  | answered {resp reply world' answer headers} : Answers req route world.app answer world'.app →
      Gives reply answer → Holds hash world.heap world'.heap resp headers [] →
      Processed hash mhd req route world (.ok (resp, reply, world'))
  | failed {e} : (mhd.Willing → ∃ res, route = some res ∧
      ∀ I : τ → Prop, I world.app → ¬ Sound hash I res) → Processed hash mhd req route world (.error e)

theorem refuse_processed {heap : Heap CStr} {headers : Headers} {text : List UInt8} {code : ℕ}
    {reason : CStr} (hh : Holds hash world.heap heap resp headers text)
    (hreason : reason.val.length ≤ reasonMaxLen)
    (h : Answers req route world.app ⟨code, headers, text ++ reason.val⟩ app') :
    Processed hash mhd req route world (refuse mhd req resp ⟨heap, app'⟩ code reason) := by
  unfold refuse
  rcases crestRespSendError_spec mhd hh req.conn code reason
    with ⟨resp', reply, hrun, hcode, hhas, hholds⟩ | ⟨hrun, hw⟩
  · rw [hrun, ok_bind]
    rw [CStr.take_of_length_le hreason] at hhas
    exact .answered h ⟨hcode, hhas⟩ hholds
  · rw [hrun]
    exact .failed fun hwill => absurd hwill hw

/-- **`crest_call_cb`**, for a handler of the resource. -/
theorem crestCallCb_processed {res : CrestRes κ τ} {m : CrestMethod} {cb : CrestResourceCb κ τ}
    {code : ℕ} (hf : Fresh world.heap) (hroute : route = some res) (hcb : res.handler m = some cb)
    (hI : ∀ I : τ → Prop, I world.app → Sound hash I res → I app)
    (h : ∀ result ops app' code' reason, cb res.context req app = .ok ((result, ops), app') →
      result.told code = some (code', reason) →
      Answers req route world.app ⟨code', headersOf ops, textOf ops ++ reason⟩ app') :
    Processed hash mhd req route world
      (crestCallCb hash mhd req CrestResp.zero res cb code ⟨world.heap, app⟩) := by
  unfold crestCallCb
  rcases hcall : cb res.context req app with e | ⟨⟨result, ops⟩, app'⟩
  · refine .failed fun _ => ⟨res, hroute, fun I happ hs => ?_⟩
    obtain ⟨result, ops, app', hok, -⟩ := hs.handlers hcb req app (hI I happ hs)
    rw [hcall] at hok
    cases hok
  have hsound : ∀ e, (result.told code = none ∨ respond hash ops CrestResp.zero world.heap = .error e) →
      ∀ I : τ → Prop, I world.app → ¬ Sound hash I res := by
    intro e he I happ hs
    obtain ⟨result1, ops1, app1, hok, -, htold, n, hn, hA⟩ := hs.handlers hcb req app (hI I happ hs)
    rw [hcall] at hok
    cases hok
    rcases he with he | he
    · have hsome := htold code
      rw [he] at hsome
      cases hsome
    · obtain ⟨r, hr⟩ := respond_returns hf hn hA
      rw [hr] at he
      cases he
  dsimp only
  rw [ok_bind]
  dsimp only
  rcases hrun : respond hash ops CrestResp.zero world.heap with e | ⟨resp, heap⟩
  · exact .failed fun _ => ⟨res, hroute, hsound e (.inr hrun)⟩
  have hholds := respond_spec hf hrun
  rw [ok_bind]
  dsimp only
  rcases result with _ | _ | _ | value
  · dsimp only
    rcases crestRespSend_spec mhd hholds req.conn code
      with ⟨resp, reply, hsend, hcode, hhas, hh⟩ | ⟨hsend, hw⟩
    · rw [hsend, ok_bind]
      refine .answered (h _ _ _ _ _ hcall rfl) ⟨hcode, ?_⟩ hh
      rwa [List.append_nil]
    · rw [hsend]
      exact .failed fun hwill => absurd hwill hw
  · exact refuse_processed hholds (by decide) (h _ _ _ _ _ hcall rfl)
  · exact refuse_processed hholds (by decide) (h _ _ _ _ _ hcall rfl)
  · exact .failed fun _ => ⟨res, hroute, hsound .abort (.inl rfl)⟩

/-- **`crest_process`** answers a request, or it is aborted for a reason. -/
theorem crestProcess_processed (hash : CStr → UInt64) (mhd : Mhd) (crest : Crest κ τ) (req : CrestReq)
    (hf : Fresh world.heap) :
    Processed hash mhd req (Routing.routerRoute crest.router (requestPath req.url)) world
      (crestProcess hash mhd crest req CrestResp.zero world) := by
  have hzero : Holds hash _ _ _ _ _ := holds_zero hf
  unfold crestProcess crestReqGetPath
  rcases hroute : Routing.routerRoute crest.router (requestPath req.url) with _ | res
  · exact refuse_processed hzero (by decide) (.unknown _)
  dsimp only
  rcases hcb : res.handler (crestReqGetMethod req) with _ | cb
  · exact refuse_processed hzero (by decide) (.noHandler hcb)
  dsimp only
  rcases h1 : passes res.authorized res.context req world.app with ⟨_ | _, app1⟩
  · obtain ⟨c, hc, hcall⟩ := passes_false h1
    exact refuse_processed hzero (by decide) (.refused hcb (List.nil_append res.gates).symm hc (.nil _) hcall)
  dsimp only
  rw [Bool.not_true, if_neg Bool.false_ne_true]
  rcases h2 : passes res.forbidden res.context req app1 with ⟨_ | _, app2⟩
  · obtain ⟨c, hc, hcall⟩ := passes_false h2
    exact refuse_processed hzero (by decide)
      (.refused hcb (List.take_append_drop 1 res.gates).symm hc (.step h1 (.nil _)) hcall)
  dsimp only
  rw [Bool.not_true, if_neg Bool.false_ne_true]
  rcases h3 : passes res.accepts res.context req app2 with ⟨_ | _, app3⟩
  · obtain ⟨c, hc, hcall⟩ := passes_false h3
    exact refuse_processed hzero (by decide)
      (.refused hcb (List.take_append_drop 2 res.gates).symm hc (.step h1 (.step h2 (.nil _))) hcall)
  dsimp only
  rw [Bool.not_true, if_neg Bool.false_ne_true]
  have hgates : Admits res.context req res.gates world.app app3 :=
    .step h1 (.step h2 (.step h3 (.nil _)))
  have hkept {there : Bool} {app4 : τ} (h4 : passes res.existing res.context req app3 = (there, app4))
      (I : τ → Prop) (happ : I world.app) (hs : Sound hash I res) : I app4 := by
    have hi1 := hs.tests res.authorized (by simp [CrestRes.tests]) req _ happ
    rw [h1] at hi1
    have hi2 := hs.tests res.forbidden (by simp [CrestRes.tests]) req _ hi1
    rw [h2] at hi2
    have hi3 := hs.tests res.accepts (by simp [CrestRes.tests]) req _ hi2
    rw [h3] at hi3
    have hi4 := hs.tests res.existing (by simp [CrestRes.tests]) req _ hi3
    rwa [h4] at hi4
  have hhandled {there : Bool} {app4 : τ} {code : ℕ}
      (h4 : passes res.existing res.context req app3 = (there, app4))
      (hsettle : (crestReqGetMethod req).settle there = .inl code) :
      Processed hash mhd req (some res) world
        (crestCallCb hash mhd req CrestResp.zero res cb code ⟨world.heap, app4⟩) :=
    crestCallCb_processed hf rfl hcb (hkept h4) fun _ _ _ _ _ hcall htold =>
      .handled hcb hgates h4 hsettle hcall htold
  have hmisplaced {there : Bool} {app4 : τ} {code : ℕ} {reason : CStr}
      (h4 : passes res.existing res.context req app3 = (there, app4))
      (hreason : reason.val.length ≤ reasonMaxLen)
      (hsettle : (crestReqGetMethod req).settle there = .inr (code, reason)) :
      Processed hash mhd req (some res) world
        (refuse mhd req CrestResp.zero ⟨world.heap, app4⟩ code reason) :=
    refuse_processed hzero hreason (.misplaced hcb hgates h4 hsettle)
  rcases h4 : passes res.existing res.context req app3 with ⟨there, app4⟩
  rcases hm : crestReqGetMethod req with _ | _ | _ | _ | _ <;> rw [hm] at hcb hhandled hmisplaced <;>
    rcases there with _ | _
  · exact hmisplaced h4 (by decide) rfl
  · exact hhandled h4 rfl
  · exact hhandled h4 rfl
  · exact hmisplaced h4 (by decide) rfl
  · exact hhandled h4 rfl
  · exact hhandled h4 rfl
  · exact hmisplaced h4 (by decide) rfl
  · exact hhandled h4 rfl
  · cases hcb
  · cases hcb

/-- **A request is served**: one answer is queued and every copy of a header is freed. -/
theorem crestServe_spec (crest : Crest κ τ) (hf : Fresh world.heap) {reply : Reply} {world' : World τ}
    (hrun : crestServe hash mhd crest req world = .ok (reply, world')) :
    ∃ answer, Answers req (Routing.routerRoute crest.router (requestPath req.url)) world.app answer
      world'.app ∧ Gives reply answer ∧ Grown world.heap world'.heap ∅ := by
  have hspec := crestProcess_processed hash mhd crest req hf
  unfold crestServe at hrun
  rcases hprocess : crestProcess hash mhd crest req CrestResp.zero world with e | ⟨resp, reply1, world1⟩
  · rw [hprocess] at hrun
    cases hrun
  rw [hprocess] at hspec hrun
  cases hspec with
  | answered hanswers hgives hholds =>
    obtain ⟨heap, hfree, hg⟩ := crestRespFree_spec hholds
    rw [ok_bind] at hrun
    dsimp only at hrun
    rw [hfree, ok_bind] at hrun
    cases hrun
    exact ⟨_, hanswers, hgives, hg⟩

theorem Admits.keeps {I : τ → Prop} {gates : List (Gate κ τ)} (h : Admits context req gates app app')
    (hgates : ∀ gate ∈ gates, ∀ app, I app → I (passes gate.cb context req app).2) (happ : I app) :
    I app' := by
  induction h with
  | nil => exact happ
  | missing _ ih => exact ih (fun gate hgate => hgates gate (List.mem_cons_of_mem _ hgate)) happ
  | @passed cb code reason gates app app1 app' hcb _ ih =>
    refine ih (fun gate hgate => hgates gate (List.mem_cons_of_mem _ hgate)) ?_
    have hi := hgates _ List.mem_cons_self app happ
    rwa [passes, hcb] at hi

/-- **An answer keeps the invariant.** -/
theorem Answers.keeps {I : τ → Prop} {answer : Answer} (h : Answers req route app answer app')
    (hs : ∀ res, route = some res → Sound hash I res) (happ : I app) : I app' := by
  have hgates : ∀ {res : CrestRes κ τ}, Sound hash I res → ∀ gate ∈ res.gates, ∀ app, I app →
      I (passes gate.cb res.context req app).2 := by
    intro res hres gate hgate app hi
    refine hres.tests gate.cb ?_ req app hi
    simp only [CrestRes.gates, List.mem_cons, List.not_mem_nil, or_false] at hgate
    rcases hgate with rfl | rfl | rfl <;> simp [CrestRes.tests]
  have hexisting : ∀ {res : CrestRes κ τ} {app1 app2 : τ} {there : Bool}, Sound hash I res → I app1 →
      passes res.existing res.context req app1 = (there, app2) → I app2 := by
    intro res app1 app2 there hres hi hpasses
    have hi2 := hres.tests res.existing (by simp [CrestRes.tests]) req app1 hi
    rwa [hpasses] at hi2
  cases h with
  | unknown => exact happ
  | noHandler => exact happ
  | @refused res _ _ app1 _ before gate cb after _ hsplit hcb hadmits hcall =>
    have hres := hs res rfl
    have hi1 : I app1 := hadmits.keeps (fun g hg => hgates hres g (by simp [hsplit, hg])) happ
    have hi := hgates hres gate (by simp [hsplit]) app1 hi1
    rwa [hcb, passes, hcall] at hi
  | @misplaced res _ _ app1 _ _ _ _ _ hadmits hpasses _ =>
    exact hexisting (hs res rfl) (hadmits.keeps (hgates (hs res rfl)) happ) hpasses
  | @handled res _ _ app1 app2 _ _ _ _ _ _ _ hhandler hadmits hpasses _ hcall _ =>
    have hi2 := hexisting (hs res rfl) (hadmits.keeps (hgates (hs res rfl)) happ) hpasses
    obtain ⟨result, ops, app3, hok, hi3, -⟩ := (hs res rfl).handlers hhandler req app2 hi2
    rw [hcall] at hok
    cases hok
    exact hi3

/-- **A request is served** if `libmicrohttpd` agrees and the resource is sound. -/
theorem crestServe_returns (crest : Crest κ τ) (req : CrestReq) (hf : Fresh world.heap) (hw : mhd.Willing)
    {I : τ → Prop} (happ : I world.app) (hsound : ∀ res,
      Routing.routerRoute crest.router (requestPath req.url) = some res → Sound hash I res) :
    ∃ r, crestServe hash mhd crest req world = .ok r := by
  have hspec := crestProcess_processed hash mhd crest req hf
  unfold crestServe
  rcases hprocess : crestProcess hash mhd crest req CrestResp.zero world with e | ⟨resp, reply, world1⟩
  · rw [hprocess] at hspec
    cases hspec with
    | failed h =>
      obtain ⟨res, hroute, hns⟩ := h hw
      exact absurd (hsound res hroute) (hns I happ)
  · rw [hprocess] at hspec
    cases hspec with
    | answered _ _ hholds =>
      obtain ⟨heap, hfree, -⟩ := crestRespFree_spec hholds
      rw [ok_bind]
      dsimp only
      rw [hfree]
      exact ⟨_, rfl⟩

end Specs

end Optics.Utils.Server
