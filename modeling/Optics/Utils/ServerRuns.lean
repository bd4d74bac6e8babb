import Optics.Lib.Decimals
import Optics.Utils.Server

/-! # Requests on many connections

`microhttpd_cb` as `libmicrohttpd` calls it: for every connection the chunks of one request after the
other, the calls of all connections in any order. What a request has sent is kept with its connection
until the call that completes it.

`server_serves` is the result: whatever the order, every connection gets one answer for each request it
has completed, in its order, with the whole of its own body; the answers are given one after the other,
and no copy of a header is left behind. -/

namespace Optics.Utils.ServerRuns

open Optics.Base Optics.Lib.Blocks Optics.Lib.Decimals
open Optics.Utils.Bodies hiding Reply
open Optics.Utils.Htables Optics.Utils.Responses Optics.Utils.Server

/-! ### The length of a body -/

/-- `Content-Length` -/
def contentLengthName : CStr :=
  ofBytes [67, 111, 110, 116, 101, 110, 116, 45, 76, 101, 110, 103, 116, 104]

/-- `isspace` -/
def isSpace (c : UInt8) : Bool := c = 32 || (9 ≤ c && c ≤ 13)

/-- The digits that a text begins with, as far as a word holds them. -/
def digitsValue (l : List UInt8) : ℕ := min (valueOf (l.takeWhile isDigit)) (2 ^ 64 - 1)

/-- `strtoul(value, NULL, 10)`: blanks, a sign, digits. -/
def strtoul (value : CStr) : ℕ :=
  match value.val.dropWhile isSpace with
  | 45 :: l =>
    if valueOf (l.takeWhile isDigit) < 2 ^ 64 then w64 (2 ^ 64 - digitsValue l) else 2 ^ 64 - 1
  | 43 :: l => digitsValue l
  | l => digitsValue l

/-- A word as `ssize_t`. -/
def toSsize (n : ℕ) : ℤ := if n < 2 ^ 63 then n else (n : ℤ) - 2 ^ 64

/-- `get_content_length`; a number that is out of range is `-1` either way. -/
def getContentLength (header : CStr → Option CStr) : ℤ :=
  match header contentLengthName with
  | none => 0
  | some value => toSsize (strtoul value)

/-- **A number is read as it is written.** -/
theorem getContentLength_decimal {header : CStr → Option CStr} {value : CStr} {n : ℕ} (hn : n < 2 ^ 63)
    (hheader : header contentLengthName = some value) (hvalue : value.val = decimal n) :
    getContentLength header = n := by
  have hall : ∀ c ∈ decimal n, isDigit c = true := fun c hc => decimal_digits hc
  have hdigits : digitsValue (decimal n) = n := by
    rw [digitsValue, List.takeWhile_eq_self_iff.mpr hall, valueOf_decimal]
    omega
  have hspace : (decimal n).dropWhile isSpace = decimal n := by
    obtain ⟨c, l, hcl⟩ := List.exists_cons_of_ne_nil (decimal_ne_nil n)
    have hc := hall c (hcl ▸ List.mem_cons_self)
    rw [hcl, List.dropWhile_cons_of_neg]
    simp only [isDigit, isSpace, Bool.and_eq_true, Bool.or_eq_true, decide_eq_true_eq,
      UInt8.le_iff_toNat_le, ← UInt8.toNat_inj] at hc ⊢
    have h48 : (48 : UInt8).toNat = 48 := rfl
    have h13 : (13 : UInt8).toNat = 13 := rfl
    have h32 : (32 : UInt8).toNat = 32 := rfl
    omega
  have hword : strtoul value = n := by
    unfold strtoul
    rw [hvalue, hspace]
    split
    · rename_i l hl
      exact absurd (hall 45 (hl ▸ List.mem_cons_self)) (by decide)
    · rename_i l hl
      exact absurd (hall 43 (hl ▸ List.mem_cons_self)) (by decide)
    · exact hdigits
  rw [getContentLength, hheader]
  dsimp only
  rw [hword, toSsize, if_pos hn]

/-! ### Calls -/

/-- A call of `microhttpd_cb`: the connection, what the request says, and a chunk of its body. -/
structure Call where
  conn : ℕ
  url : CStr
  method : CStr
  header : CStr → Option CStr
  data : List UInt8

/-- The request that a call completes. -/
def Call.req (call : Call) (body : Req) : CrestReq :=
  ⟨call.conn, call.url, call.method, call.header, body⟩

/-- What the calls of `microhttpd_cb` share: `*args` of each connection, and the world. -/
structure Server (τ : Type) where
  args : ℕ → Option Body
  world : World τ

variable {κ τ : Type}

section Ops
variable (hash : CStr → UInt64) (mhd : Mhd) (crest : Crest κ τ)

/-- `microhttpd_cb`, with the reply if the request has been processed; its body is freed, and the next
request of the connection starts without one. -/
def serverCall (call : Call) (server : Server τ) : Outcome (Option (ℕ × Reply) × Server τ) := do
  match ← microhttpdCb (getContentLength call.header) (server.args call.conn) call.data with
  | .more args => .ok (none, { server with args := Function.update server.args call.conn args })
  | .process body => do
    let (reply, world) ← crestServe hash mhd crest (call.req body) server.world
    .ok (some (call.conn, reply), ⟨Function.update server.args call.conn none, world⟩)

/-- Calls in the order in which they are made, and the replies. -/
def serverRun : List Call → Server τ → Outcome (List (ℕ × Reply) × Server τ)
  | [], server => .ok ([], server)
  | call :: calls, server => do
    let (reply, server) ← serverCall hash mhd crest call server
    let (replies, server) ← serverRun calls server
    .ok (reply.toList ++ replies, server)

end Ops

/-- The calls of one connection: the requests that are completed, and `*args`. -/
def feed : Option Body → List Call → Outcome (List CrestReq × Option Body)
  | args, [] => .ok ([], args)
  | args, call :: calls => do
    match ← microhttpdCb (getContentLength call.header) args call.data with
    | .more args => feed args calls
    | .process body => do
      let (reqs, args) ← feed none calls
      .ok (call.req body :: reqs, args)

/-! ### Requests of a connection -/

/-- A request as a client sends it: the body comes in chunks, and there may be a call in front of
them. -/
structure Request where
  url : CStr
  method : CStr
  header : CStr → Option CStr
  lead : Bool
  chunks : List (List UInt8)

namespace Request

/-- The body. -/
def body (request : Request) : List UInt8 := request.chunks.flatten

/-- A call for a request. -/
def call (request : Request) (conn : ℕ) (data : List UInt8) : Call :=
  ⟨conn, request.url, request.method, request.header, data⟩

/-- The calls for a request: the chunks in their order, and one without data. -/
def calls (request : Request) (conn : ℕ) : List Call :=
  ((if request.lead then [[]] else []) ++ request.chunks ++ [[]]).map (request.call conn)

/-- The request as the resource is to see it. -/
def complete (request : Request) (conn : ℕ) : CrestReq :=
  ⟨conn, request.url, request.method, request.header, ⟨request.body, request.body.length, 0⟩⟩

/-- The length is announced, chunks have data, and a body that is empty is not waited for. -/
structure WellFormed (request : Request) : Prop where
  length : getContentLength request.header = request.body.length
  small : request.body.length < 2 ^ 63
  nonempty : ∀ chunk ∈ request.chunks, chunk ≠ []
  lead : request.lead = true → request.chunks ≠ []

end Request

/-- A request of which some calls are still to come. -/
def InProgress (conn : ℕ) (pending : List Call) : Prop :=
  ∃ request : Request, request.WellFormed ∧ ∃ rest, rest ≠ [] ∧ request.calls conn = pending ++ rest

section Feed

theorem feed_chunks (request : Request) (conn : ℕ) : ∀ {chunks : List (List UInt8)} (body : Body), (∀ c ∈ chunks, c ≠ []) →
    body.cap < 2 ^ 64 → body.pos + chunks.flatten.length ≤ body.cap → ∃ body' : Body,
      body'.cap = body.cap ∧ body'.received = body.received ++ chunks.flatten ∧
      ∀ rest, feed (some body) (chunks.map (request.call conn) ++ rest) = feed (some body') rest
  | [], body, _, _, _ => ⟨body, rfl, by simp, fun rest => rfl⟩
  | chunk :: chunks, body, hne, hcap, hfit => by
    rw [List.flatten_cons, List.length_append] at hfit
    obtain ⟨body1, happend, hcap1, hreceived1⟩ := bodyAppend_spec body chunk (by omega) hcap
    have hpos1 : body1.pos = body.pos + chunk.length := by
      rw [← body1.length_received, hreceived1, List.length_append, body.length_received]
    obtain ⟨body', hcap', hreceived, hrest⟩ := feed_chunks request conn body1
      (fun c hc => hne c (List.mem_cons_of_mem _ hc)) (by omega) (by omega)
    refine ⟨body', hcap'.trans hcap1, ?_, fun rest => ?_⟩
    · rw [hreceived, hreceived1, List.flatten_cons, List.append_assoc]
    · have hchunk : chunk ≠ [] := hne chunk List.mem_cons_self
      have hcall : microhttpdCb (getContentLength request.header) (some body) chunk =
          .ok (.more (some body1)) := by
        simp [microhttpdCb, bodyOrProcess, hchunk, happend]
      rw [List.map_cons, List.cons_append, feed, Request.call]
      dsimp only
      rw [hcall, ok_bind]
      exact hrest rest

variable {request : Request} {conn : ℕ}

theorem feed_lead (hw : request.WellFormed) (hne : request.chunks ≠ []) (rest : List Call) :
    feed none ((if request.lead then [[]] else []).map (request.call conn) ++
      (request.chunks.map (request.call conn) ++ rest)) =
    feed (some (Body.new request.body.length)) (request.chunks.map (request.call conn) ++ rest) := by
  obtain ⟨chunk, chunks, hchunks⟩ := List.exists_cons_of_ne_nil hne
  have hchunk : chunk ≠ [] := hw.nonempty chunk (hchunks ▸ List.mem_cons_self)
  have hlen : 0 < request.body.length := by
    rw [Request.body, hchunks, List.flatten_cons, List.length_append]
    have := List.length_pos_iff.mpr hchunk
    omega
  have hpos : getContentLength request.header > 0 := by
    rw [hw.length]
    omega
  have hnew : Body.new (getContentLength request.header).toNat = Body.new request.body.length := by
    rw [hw.length, Int.toNat_natCast]
  rcases request.lead with _ | _
  · -- the first chunk allocates the body and is appended to it
    simp [hchunks, feed, Request.call, microhttpdCb, hpos, hchunk, hnew]
  · simp [feed, Request.call, microhttpdCb, hpos, hnew]

/-- **The calls for a request** complete it with the whole of its body. -/
theorem feed_request (hw : request.WellFormed) (rest : List Call) :
    feed none (request.calls conn ++ rest) = (do
      let (reqs, args) ← feed none rest
      .ok (request.complete conn :: reqs, args)) := by
  unfold Request.calls
  rw [List.map_append, List.map_append, List.append_assoc, List.append_assoc]
  by_cases hne : request.chunks = []
  · -- no body is announced
    have hlead : request.lead = false := by
      rcases hl : request.lead with _ | _
      · rfl
      · exact absurd hne (hw.lead hl)
    have hbody : request.body = [] := by rw [Request.body, hne, List.flatten_nil]
    have hzero : ¬ getContentLength request.header > 0 := by
      rw [hw.length, hbody]
      decide
    rw [hne, hlead]
    simp only [Bool.false_eq_true, if_false, List.map_nil, List.nil_append, List.map_cons,
      List.singleton_append, feed]
    simp only [Request.call, microhttpdCb, if_neg hzero, bodyOrProcess, ok_bind, Request.complete,
      hbody, List.length_nil, Call.req]
  · rw [feed_lead hw hne]
    have hsmall := hw.small
    obtain ⟨body', hcap, hreceived, hrest⟩ := feed_chunks request conn
      (Body.new request.body.length) hw.nonempty (by change request.body.length < _; omega)
      (by change 0 + request.body.length ≤ request.body.length; omega)
    rw [hrest, List.map_singleton, List.singleton_append, feed]
    have hdata : body'.data = request.body := by
      rw [Body.received_new, List.nil_append] at hreceived
      have hpos : body'.pos = body'.data.length := by
        rw [← body'.length_received, hreceived, body'.length_data, hcap]
        rfl
      rw [Request.body, ← hreceived, Body.received, hpos, List.take_length]
    have hcall : microhttpdCb (getContentLength request.header) (some body') [] =
        .ok (.process ⟨request.body, request.body.length, 0⟩) := by
      simp [microhttpdCb, bodyOrProcess, hdata, hcap, Body.new]
    rw [Request.call]
    dsimp only
    rw [hcall, ok_bind]
    rfl

theorem feed_requests {requests : List Request} (hw : ∀ r ∈ requests, r.WellFormed)
    (rest : List Call) : feed none (requests.flatMap (Request.calls · conn) ++ rest) = (do
      let (reqs, args) ← feed none rest
      .ok (requests.map (Request.complete · conn) ++ reqs, args)) := by
  induction requests with
  | nil =>
    rcases hfeed : feed none rest with e | ⟨reqs, args⟩ <;> simp [hfeed]
  | cons request requests ih =>
    rw [List.flatMap_cons, List.append_assoc, feed_request (hw request List.mem_cons_self),
      ih fun r hr => hw r (List.mem_cons_of_mem _ hr)]
    rcases feed none rest with e | ⟨reqs, args⟩ <;> rfl

theorem more_isSome {contentLength : ℤ} {args args' : Option Body} {data : List UInt8}
    (h : microhttpdCb contentLength args data = .ok (.more args')) : args'.isSome := by
  have hbody : ∀ {body : Option Body}, bodyOrProcess body data = .ok (.more args') →
      args'.isSome := by
    intro body hb
    unfold bodyOrProcess at hb
    rcases body with _ | body
    · cases hb
    · dsimp only at hb
      split_ifs at hb
      · obtain ⟨body1, -, hb⟩ := Base.bind_eq_ok.mp hb
        cases hb
        rfl
      · cases hb
  unfold microhttpdCb at h
  rcases args with _ | body
  · dsimp only at h
    split_ifs at h
    · cases h
      rfl
    · exact hbody h
    · exact hbody h
  · exact hbody h

theorem feed_append : ∀ (calls rest : List Call) (args : Option Body),
    feed args (calls ++ rest) = (do
      let (reqs, args) ← feed args calls
      let (reqs', args) ← feed args rest
      .ok (reqs ++ reqs', args))
  | [], rest, args => by
    rcases hfeed : feed args rest with e | ⟨reqs, args'⟩ <;> simp [feed, hfeed]
  | call :: calls, rest, args => by
    rw [List.cons_append, feed, feed]
    rcases hcall : microhttpdCb (getContentLength call.header) args call.data with e | args' | body
    · rfl
    · rw [ok_bind, ok_bind]
      exact feed_append calls rest args'
    · rw [ok_bind, ok_bind]
      dsimp only
      rw [feed_append calls rest none]
      rcases feed none calls with e | ⟨reqs, args1⟩
      · rfl
      · rw [ok_bind, ok_bind, ok_bind]
        dsimp only
        rcases feed args1 rest with e | ⟨reqs', args2⟩ <;> rfl

theorem feed_ne_nil : ∀ {calls : List Call} {args : Option Body} {reqs : List CrestReq}, calls ≠ [] →
    feed args calls = .ok (reqs, none) → reqs ≠ []
  | [call], args, reqs, _, h => by
    rw [feed] at h
    rcases hcall : microhttpdCb (getContentLength call.header) args call.data with e | args' | body <;>
      rw [hcall] at h
    · cases h
    · cases h
      cases more_isSome hcall
    · cases h
      exact List.cons_ne_nil _ _
  | call :: call' :: calls, args, reqs, _, h => by
    rw [feed] at h
    rcases hcall : microhttpdCb (getContentLength call.header) args call.data with e | args' | body <;>
      rw [hcall] at h
    · cases h
    · exact feed_ne_nil (List.cons_ne_nil _ _) h
    · rw [ok_bind] at h
      obtain ⟨⟨reqs', args'⟩, -, h⟩ := Base.bind_eq_ok.mp h
      rw [← (Prod.mk.inj (Except.ok.inj h)).1]
      exact List.cons_ne_nil _ _

/-- **A request in progress** has not been completed. -/
theorem feed_pending {pending : List Call} (h : InProgress conn pending) :
    ∃ args, feed none pending = .ok ([], args) := by
  obtain ⟨request, hw, rest, hrest, hcalls⟩ := h
  have hall := @feed_request request conn hw []
  rw [List.append_nil, hcalls, feed_append] at hall
  obtain ⟨⟨reqs, args⟩, hpending, hall⟩ := Base.bind_eq_ok.mp hall
  obtain ⟨⟨reqs', args'⟩, hfeed, hall⟩ := Base.bind_eq_ok.mp hall
  obtain ⟨heq, rfl⟩ := Prod.mk.inj (Except.ok.inj hall)
  obtain ⟨req, reqs', rfl⟩ := List.exists_cons_of_ne_nil (feed_ne_nil hrest hfeed)
  have hlen := congrArg List.length heq
  rw [List.length_append, List.length_cons, List.length_cons, List.length_nil] at hlen
  have hnil : reqs = [] := List.eq_nil_of_length_eq_zero (by omega)
  exact ⟨args, hnil ▸ hpending⟩

end Feed

/-! ### Runs -/

/-- Requests that are answered one after the other, over the resources that have been added. -/
inductive Serves (accepted : List (Routing.Path × CrestRes κ τ)) :
    List CrestReq → τ → List (ℕ × Reply) → τ → Prop
  | nil (app : τ) : Serves accepted [] app [] app
  | cons {req reqs app app1 app' route answer reply replies} :
      Routes accepted (requestPath req.url) route → Answers req route app answer app1 →
      Gives reply answer → Serves accepted reqs app1 replies app' →
      Serves accepted (req :: reqs) app ((req.conn, reply) :: replies) app'

section Runs
variable {hash : CStr → UInt64} {mhd : Mhd} {crest : Crest κ τ}
  {accepted : List (Routing.Path × CrestRes κ τ)}

/-- The calls of a connection. -/
def callsOf (conn : ℕ) (calls : List Call) : List Call := calls.filter (·.conn = conn)

/-- The requests of a connection. -/
def reqsOf (conn : ℕ) (reqs : List CrestReq) : List CrestReq := reqs.filter (·.conn = conn)

theorem callsOf_cons_self (call : Call) (calls : List Call) :
    callsOf call.conn (call :: calls) = call :: callsOf call.conn calls :=
  List.filter_cons_of_pos (by simp)

theorem callsOf_cons_of_ne {call : Call} {c : ℕ} (h : c ≠ call.conn) (calls : List Call) :
    callsOf c (call :: calls) = callsOf c calls :=
  List.filter_cons_of_neg (by simpa using Ne.symm h)

theorem reqsOf_cons_self (req : CrestReq) (reqs : List CrestReq) :
    reqsOf req.conn (req :: reqs) = req :: reqsOf req.conn reqs :=
  List.filter_cons_of_pos (by simp)

theorem reqsOf_cons_of_ne {req : CrestReq} {c : ℕ} (h : c ≠ req.conn) (reqs : List CrestReq) :
    reqsOf c (req :: reqs) = reqsOf c reqs :=
  List.filter_cons_of_neg (by simpa using Ne.symm h)

/-- **A run answers the requests that it completes**, one after the other; which they are is decided
for each connection by its own calls. -/
theorem serverRun_serves (hb : Built accepted crest) : ∀ {calls : List Call} {server server' : Server τ}
    {replies : List (ℕ × Reply)}, serverRun hash mhd crest calls server = .ok (replies, server') →
    Fresh server.world.heap → ∃ reqs, Serves accepted reqs server.world.app replies server'.world.app ∧
      Grown server.world.heap server'.world.heap ∅ ∧
      ∀ c, feed (server.args c) (callsOf c calls) = .ok (reqsOf c reqs, server'.args c)
  | [], server, server', replies, h, hf => by
    cases h
    exact ⟨[], .nil _, Grown.refl hf, fun c => rfl⟩
  | call :: calls, server, server', replies, h, hf => by
    rw [serverRun] at h
    obtain ⟨⟨reply, server1⟩, hcall, h⟩ := Base.bind_eq_ok.mp h
    obtain ⟨⟨replies1, server2⟩, hrun, h⟩ := Base.bind_eq_ok.mp h
    cases h
    obtain ⟨out, hcb, hcall⟩ := Base.bind_eq_ok.mp hcall
    rcases out with args | body
    · cases hcall
      obtain ⟨reqs, hserves, hg, hfeed⟩ := serverRun_serves hb hrun hf
      refine ⟨reqs, hserves, hg, fun c => ?_⟩
      have hc := hfeed c
      dsimp only at hc
      by_cases hconn : c = call.conn
      · rw [hconn, Function.update_self] at hc
        rw [hconn, callsOf_cons_self, feed, hcb, ok_bind]
        exact hc
      · rw [Function.update_of_ne hconn] at hc
        rw [callsOf_cons_of_ne hconn]
        exact hc
    · obtain ⟨⟨reply1, world1⟩, hserve, hcall⟩ := Base.bind_eq_ok.mp hcall
      cases hcall
      obtain ⟨answer, hanswers, hgives, hg1⟩ := crestServe_spec crest hf hserve
      obtain ⟨reqs, hserves, hg, hfeed⟩ := serverRun_serves hb hrun hg1.fresh
      refine ⟨call.req body :: reqs, .cons (hb.routes _) hanswers hgives hserves, hg1.trans hg,
        fun c => ?_⟩
      have hc := hfeed c
      dsimp only at hc
      by_cases hconn : c = call.conn
      · rw [hconn, Function.update_self] at hc
        rw [hconn, callsOf_cons_self, feed, hcb, ok_bind]
        dsimp only
        rw [hc, ok_bind]
        exact congrArg (fun l => Except.ok (l, server'.args call.conn))
          (reqsOf_cons_self (call.req body) reqs).symm
      · rw [Function.update_of_ne hconn] at hc
        rw [callsOf_cons_of_ne hconn, hc, reqsOf_cons_of_ne hconn]

/-- Every resource that has been added is sound. -/
def AllSound (hash : CStr → UInt64) (I : τ → Prop) (accepted : List (Routing.Path × CrestRes κ τ)) :
    Prop :=
  ∀ a ∈ accepted, Sound hash I a.2

theorem AllSound.routed {I : τ → Prop} (h : AllSound hash I accepted) (hb : Built accepted crest)
    {request : Routing.Path} {res : CrestRes κ τ}
    (hroute : Routing.routerRoute crest.router request = some res) : Sound hash I res := by
  obtain ⟨a, ha, rfl⟩ := (hroute ▸ hb.routes request : Routes accepted request (some res)).mem
  exact h a ha

/-- **A run returns** if `libmicrohttpd` agrees, the resources are sound and the chunks of each connection
fit. -/
theorem serverRun_returns (hb : Built accepted crest) (hw : mhd.Willing)
    {I : τ → Prop} (hsound : AllSound hash I accepted) : ∀ (calls : List Call) (server : Server τ),
    I server.world.app → Fresh server.world.heap → (∀ c, ∃ r, feed (server.args c) (callsOf c calls) = .ok r) →
    ∃ r, serverRun hash mhd crest calls server = .ok r
  | [], server, _, _, _ => ⟨([], server), rfl⟩
  | call :: calls, server, happ, hf, hfeed => by
    obtain ⟨r, hr⟩ := hfeed call.conn
    rw [callsOf_cons_self, feed] at hr
    obtain ⟨out, hcb, hr⟩ := Base.bind_eq_ok.mp hr
    rw [serverRun, serverCall, hcb, ok_bind]
    rcases out with args | body
    · rw [ok_bind]
      dsimp only
      obtain ⟨r', hrun⟩ := serverRun_returns hb hw hsound calls
        { server with args := Function.update server.args call.conn args } happ hf fun c => by
          dsimp only
          by_cases hconn : c = call.conn
          · rw [hconn, Function.update_self]
            exact ⟨r, hr⟩
          · rw [Function.update_of_ne hconn, ← callsOf_cons_of_ne hconn]
            exact hfeed c
      rw [hrun]
      exact ⟨_, rfl⟩
    · obtain ⟨⟨reply, world⟩, hserve⟩ := crestServe_returns crest (call.req body) hf hw happ
        fun res hroute => hsound.routed hb hroute
      obtain ⟨answer, hanswers, -, hg⟩ := crestServe_spec crest hf hserve
      have happ' : I world.app := hanswers.keeps (fun res hroute => hsound.routed hb hroute) happ
      obtain ⟨⟨reqs, args⟩, hr, -⟩ := Base.bind_eq_ok.mp hr
      dsimp only
      rw [hserve, ok_bind, ok_bind]
      dsimp only
      obtain ⟨r', hrun⟩ := serverRun_returns hb hw hsound calls
        ⟨Function.update server.args call.conn none, world⟩ happ' hg.fresh fun c => by
          dsimp only
          by_cases hconn : c = call.conn
          · rw [hconn, Function.update_self]
            exact ⟨_, hr⟩
          · rw [Function.update_of_ne hconn, ← callsOf_cons_of_ne hconn]
            exact hfeed c
      rw [hrun]
      exact ⟨_, rfl⟩

/-- What each connection has sent: some requests, and part of another one. -/
def Sent (calls : List Call) (requests : ℕ → List Request) : Prop :=
  ∀ c, (∀ r ∈ requests c, r.WellFormed) ∧ ∃ pending, InProgress c pending ∧
    callsOf c calls = (requests c).flatMap (Request.calls · c) ++ pending

theorem Sent.feed {calls : List Call} {requests : ℕ → List Request} (h : Sent calls requests) (c : ℕ) :
    ∃ args, feed none (callsOf c calls) = .ok ((requests c).map (Request.complete · c), args) := by
  obtain ⟨hw, pending, hpending, hcalls⟩ := h c
  obtain ⟨args, hfeed⟩ := feed_pending hpending
  refine ⟨args, ?_⟩
  rw [hcalls, feed_requests hw, hfeed]
  simp

/-- **A server answers every request once**, with what its own connection has sent. In whichever order
the calls of the connections come, the requests of each are answered in their order and with the whole
of their bodies, one after the other over the state of the application, and in the end no copy of a
header is left; and the calls return if `libmicrohttpd` agrees and the resources are sound. -/
theorem server_serves (hb : Built accepted crest) {calls : List Call} {requests : ℕ → List Request}
    (hsent : Sent calls requests) (app : τ) :
    (∀ replies server', serverRun hash mhd crest calls ⟨fun _ => none, ⟨.empty, app⟩⟩ =
      .ok (replies, server') →
      ∃ reqs, Serves accepted reqs app replies server'.world.app ∧
        (∀ c, reqsOf c reqs = (requests c).map (Request.complete · c)) ∧
        ∀ data, server'.world.heap.cell data = none) ∧
    (mhd.Willing → ∀ I : τ → Prop, I app → AllSound hash I accepted →
      ∃ r, serverRun hash mhd crest calls ⟨fun _ => none, ⟨.empty, app⟩⟩ = .ok r) := by
  refine ⟨fun replies server' hrun => ?_, fun hw I happ hsound => ?_⟩
  · obtain ⟨reqs, hserves, hg, hfeed⟩ := serverRun_serves hb hrun fresh_empty
    refine ⟨reqs, hserves, fun c => ?_, fun data => hg.frame data (Set.notMem_empty data)⟩
    obtain ⟨args, hc⟩ := hsent.feed c
    exact congrArg Prod.fst (Except.ok.inj ((hfeed c).symm.trans hc))
  · refine serverRun_returns hb hw hsound calls _ happ fresh_empty fun c => ?_
    obtain ⟨args, hc⟩ := hsent.feed c
    exact ⟨_, hc⟩

end Runs

/-! ### Two connections -/

/-- A resource at `/a` that counts how often it has been read. -/
def counting : CrestRes Unit ℕ where
  path := ofBytes [47, 97]
  context := ()
  authorized := none
  forbidden := none
  accepts := some fun _ req app => (req.header nameA = none, app)
  existing := none
  get := some fun _ _ app => .ok ((.ok, [.addHeader nameA nameA, .write [120]]), app + 1)
  put := none
  post := none
  delete := none

/-- A reading of it, without a body. -/
def reading : Request := ⟨ofBytes [47, 97], getText, fun _ => none, false, []⟩

/-- A body of three bytes for another resource. -/
def writing : Request where
  url := ofBytes [47, 98]
  method := putText
  header := fun key => if key = contentLengthName then some (ofBytes [51]) else none
  lead := true
  chunks := [[97], [98, 99]]

/-- `libmicrohttpd`, when it refuses nothing. -/
def agreeing : Mhd := ⟨fun _ => true, fun _ _ _ => true, fun _ _ => true⟩

/-- A server with the resource, which has been started. -/
def countingServer : Crest Unit ℕ := (crestBind (crestAdd crestNew counting).2 true).2

/-- The reading comes between the chunks of the body. -/
def twoCalls : List Call :=
  [writing.call 2 [], writing.call 2 [97], reading.call 1 [], writing.call 2 [98, 99], writing.call 2 []]

/-- What the two connections have sent. -/
def twoRequests (conn : ℕ) : List Request :=
  if conn = 1 then [reading] else if conn = 2 then [writing] else []

theorem reading_wellFormed : reading.WellFormed := ⟨rfl, by decide, by decide, by decide⟩

theorem writing_wellFormed : writing.WellFormed :=
  ⟨getContentLength_decimal (by decide) rfl rfl, by decide, by decide, by decide⟩

theorem sent_twoCalls : Sent twoCalls twoRequests := by
  have hpending : ∀ c, InProgress c [] := fun c =>
    ⟨reading, reading_wellFormed, reading.calls c, List.cons_ne_nil _ _, rfl⟩
  intro c
  unfold twoRequests
  split_ifs with h1 h2
  · exact ⟨by simpa using reading_wellFormed, [], hpending c, by rw [h1]; rfl⟩
  · exact ⟨by simpa using writing_wellFormed, [], hpending c, by rw [h2]; rfl⟩
  · refine ⟨by simp, [], hpending c, ?_⟩
    have hc1 : ¬ 1 = c := Ne.symm h1
    have hc2 : ¬ 2 = c := Ne.symm h2
    simp [callsOf, twoCalls, Request.call, hc1, hc2]

theorem server_serves_two : ∃ replies server', serverRun htableHash agreeing countingServer twoCalls
      ⟨fun _ => none, ⟨.empty, 0⟩⟩ = .ok (replies, server') ∧
    ∃ reqs, Serves [(requestPath counting.path, counting)] reqs 0 replies server'.world.app ∧
      reqsOf 2 reqs = [writing.complete 2] := by
  have hb : Built [(requestPath counting.path, counting)] countingServer :=
    .bound (.added .new rfl)
  obtain ⟨hserves, hreturns⟩ := @server_serves Unit ℕ htableHash agreeing _ _ hb _ _ sent_twoCalls 0
  obtain ⟨⟨replies, server'⟩, hrun⟩ := hreturns ⟨fun _ => rfl, fun _ _ _ => rfl, fun _ _ => rfl⟩ (fun _ => True)
    trivial (by
    intro a ha
    rw [List.mem_singleton.mp ha]
    refine ⟨fun _ _ _ _ _ => trivial, fun {m cb} hcb req app _ => ?_⟩
    cases m <;> cases hcb
    refine ⟨_, _, _, rfl, trivial, fun _ => rfl, 0, by decide, fun k hk k' hk' _ => ?_⟩
    have hone : ∀ k ∈ keysOf [.addHeader nameA nameA, .write [120]], k = HtableMap.clip nameA := by
      simp [keysOf]
    rw [hone k hk, hone k' hk'])
  obtain ⟨reqs, hall, hreqs, -⟩ := hserves replies server' hrun
  exact ⟨replies, server', hrun, reqs, hall, hreqs 2⟩

end Optics.Utils.ServerRuns
