import Optics.Lib.Blocks
import Optics.Utils.Buffers
import Optics.Utils.HtableGrowth

/-! # Responses

`utils/crest/resp.c`. The headers of a response are a hash table of copies that `strdup` makes; a
header that is set again replaces its copy, which is freed. The body is a buffer, which goes over to
the server when the response is sent.

`HeaderTable` says what the table owns on the heap and what the headers are; the calls of a handler
keep it (`respond_spec`), what is sent has each header once with the value it was given last
(`crestRespSend_spec`), and `crest_resp_free` leaves the heap as it was (`crestRespFree_spec`). -/

namespace Optics.Utils.Responses

open Optics.Base Optics.Lib.Blocks Optics.Lib.Probing
open Optics.Utils.Htables Optics.Utils.HtableMap Optics.Utils.HtableGrowth Optics.Utils.Buffers

/-- `struct crest_resp`, without the connection; the values of the headers are the addresses of
copies. -/
structure CrestResp where
  headers : Htable
  body : Buffer

/-- `struct crest_resp resp = {0}`. -/
def CrestResp.zero : CrestResp := ⟨Htable.zero, Buffer.zero⟩

/-- `strdup`, which is taken to find memory. -/
def strdup (heap : Heap CStr) (value : CStr) : ℕ × Heap CStr := alloc heap value

/-- `free`: of a copy that has not been freed. -/
def freeCopy (heap : Heap CStr) (data : ℕ) : Outcome (Heap CStr) :=
  (free heap data).elim (.error .undefined) .ok

/-- `buffer_reset`. -/
def bufferReset (_ : Buffer) : Buffer := Buffer.zero

/-! ### The server's side -/

/-- `struct MHD_Response`: a body and the headers that have been added. -/
structure Response where
  body : List UInt8
  headers : List (CStr × CStr)

/-- A response that has been queued, with its status code. -/
structure Reply where
  code : ℕ
  response : Response

/-- What `libmicrohttpd` agrees to: the creation of a response, another header, and the response in the
queue of a connection. -/
structure Mhd where
  createResponse : List UInt8 → Bool
  addHeader : Response → CStr → CStr → Bool
  queueResponse : ℕ → Reply → Bool

/-- It agrees to everything. -/
structure Mhd.Willing (mhd : Mhd) : Prop where
  create : ∀ body, mhd.createResponse body = true
  add : ∀ response key value, mhd.addHeader response key value = true
  queue : ∀ conn reply, mhd.queueResponse conn reply = true

/-! ### The functions -/

section Ops
variable (hash : CStr → UInt64) (mhd : Mhd)

/-- `crest_resp_add_header`. -/
def crestRespAddHeader (resp : CrestResp) (heap : Heap CStr) (key value : CStr) :
    Outcome (CrestResp × Heap CStr) := do
  let (data, heap) := strdup heap value
  let (headers, found) ← htableGet hash resp.headers key
  if !found.ok then do
    let (headers, _) ← htablePut hash headers key data
    .ok ({ resp with headers := headers }, heap)
  else do
    let (headers, ret) ← htableXchg hash headers key data
    let heap ← freeCopy heap ret.value
    .ok ({ resp with headers := headers }, heap)

/-- `crest_resp_write`. -/
def crestRespWrite (resp : CrestResp) (body : List UInt8) : Outcome CrestResp := do
  let body ← bufferWrite resp.body body
  .ok { resp with body := body }

/-- `crest_resp_free`. -/
def crestRespFree (resp : CrestResp) (heap : Heap CStr) : Outcome (CrestResp × Heap CStr) := do
  let heap ← (freeAll ((htableItems resp.headers).map Prod.snd) heap).elim (.error .undefined) .ok
  .ok (⟨htableReset resp.headers, bufferReset resp.body⟩, heap)

/-- The loop of `crest_resp_send` over the headers. -/
def addHeaders (heap : Heap CStr) : List (CStr × ℕ) → Response → Outcome Response
  | [], response => .ok response
  | (key, data) :: items, response =>
    match heap.cell data with
    | none => .error .undefined
    | some value =>
      if mhd.addHeader response key value then
        addHeaders heap items { response with headers := response.headers ++ [(key, value)] }
      else .error .abort

/-- `crest_resp_send`: what is queued on the connection; the response keeps no body. -/
def crestRespSend (conn : ℕ) (resp : CrestResp) (heap : Heap CStr) (code : ℕ) :
    Outcome (CrestResp × Reply) :=
  if mhd.createResponse resp.body.contents then do
    let response : Response := ⟨resp.body.contents, []⟩
    let resp := { resp with body := Buffer.zero }
    let response ← addHeaders mhd heap (htableItems resp.headers) response
    if mhd.queueResponse conn ⟨code, response⟩ then .ok (resp, ⟨code, response⟩)
    else .error .abort
  else .error .abort

def reasonMaxLen : ℕ := 1024

/-- `crest_resp_send_error`. -/
def crestRespSendError (conn : ℕ) (resp : CrestResp) (heap : Heap CStr) (code : ℕ) (reason : CStr) :
    Outcome (CrestResp × Reply) := do
  let resp ← crestRespWrite resp (reason.take reasonMaxLen).val
  crestRespSend mhd conn resp heap code

/-- A call that a handler may make. -/
inductive RespOp where
  | addHeader (key value : CStr)
  | write (body : List UInt8)

/-- A call of a handler. -/
def respOp (resp : CrestResp) (heap : Heap CStr) : RespOp → Outcome (CrestResp × Heap CStr)
  | .addHeader key value => crestRespAddHeader hash resp heap key value
  | .write body => do
    let resp ← crestRespWrite resp body
    .ok (resp, heap)

/-- The calls of a handler, one after the other. -/
def respond : List RespOp → CrestResp → Heap CStr → Outcome (CrestResp × Heap CStr)
  | [], resp, heap => .ok (resp, heap)
  | op :: ops, resp, heap => do
    let (resp, heap) ← respOp hash resp heap op
    respond ops resp heap

end Ops

/-! ### What a response is -/

/-- Headers by their names, cut as the table cuts them. -/
abbrev Headers := CStr → Option CStr

/-- What a call does to the headers. -/
def RespOp.header (headers : Headers) : RespOp → Headers
  | .addHeader key value => fun k => if k = clip key then some value else headers k
  | .write _ => headers

/-- What a call puts behind the body. -/
def RespOp.text : RespOp → List UInt8
  | .addHeader _ _ => []
  | .write body => body

/-- The headers after some calls: each has the value it was given last. -/
def headersOf (ops : List RespOp) : Headers := ops.foldl RespOp.header fun _ => none

/-- The body that some calls write. -/
def textOf (ops : List RespOp) : List UInt8 := ops.flatMap RespOp.text

/-- A table that has grown on a heap: it owns a copy for each of its keys and nothing else, and they
are the values of the headers. -/
structure HeaderTable (hash : CStr → UInt64) (heap0 heap : Heap CStr) (ht : Htable) (M : KeyMap)
    (headers : Headers) : Prop where
  inv : Inv hash ht M
  grown : Grown heap0 heap {p | ∃ k, M.lookup k = some p}
  inj : ∀ {k k' p}, M.lookup k = some p → M.lookup k' = some p → k = k'
  values : ∀ k, (M.lookup k).bind heap.cell = headers k

section Specs
variable {hash : CStr → UInt64} {heap0 heap heap' : Heap CStr} {ht ht' : Htable} {M : KeyMap}
  {headers : Headers}

theorem headerTable_zero (hf : Fresh heap) : HeaderTable hash heap heap Htable.zero ∅ fun _ => none where
  inv := inv_zero
  grown := by
    have hnone : {p | ∃ k, (∅ : KeyMap).lookup k = some p} = ∅ := by simp [Finmap.lookup_empty]
    exact hnone ▸ Grown.refl hf
  inj h _ := by simp [Finmap.lookup_empty] at h
  values k := by simp [Finmap.lookup_empty]

namespace HeaderTable

theorem cell_eq (h : HeaderTable hash heap0 heap ht M headers) {k : CStr} {p : ℕ}
    (hp : M.lookup k = some p) : ∃ value, heap.cell p = some value ∧ headers k = some value := by
  obtain ⟨value, hvalue⟩ := Option.isSome_iff_exists.mp (h.grown.live p ⟨k, hp⟩).2
  refine ⟨value, hvalue, ?_⟩
  rw [← h.values k, hp, Option.bind_some, hvalue]

theorem lookup_insert_iff {key k : CStr} {data p : ℕ} :
    (M.insert key data).lookup k = some p ↔ (k = key ∧ p = data) ∨ (k ≠ key ∧ M.lookup k = some p) := by
  by_cases hk : k = key
  · subst hk
    rw [Finmap.lookup_insert]
    simp [eq_comm]
  · simp [hk, Finmap.lookup_insert_of_ne]

theorem assign (h : HeaderTable hash heap0 heap ht M headers) {key value : CStr}
    (hi : Inv hash ht' (M.insert (clip key) heap.next))
    (hg : Grown heap0 heap' {p | ∃ k, (M.insert (clip key) heap.next).lookup k = some p})
    (hnew : heap'.cell heap.next = some value)
    (hold : ∀ k p, k ≠ clip key → M.lookup k = some p → heap'.cell p = heap.cell p) :
    HeaderTable hash heap0 heap' ht' (M.insert (clip key) heap.next)
      (RespOp.header headers (.addHeader key value)) := by
  have hne : ∀ {k p}, M.lookup k = some p → p ≠ heap.next := fun hp => (h.grown.lt_next ⟨_, hp⟩).ne
  refine ⟨hi, hg, fun {k k' p} hk hk' => ?_, fun k => ?_⟩
  · rcases lookup_insert_iff.mp hk with ⟨rfl, rfl⟩ | ⟨-, hk⟩ <;>
      rcases lookup_insert_iff.mp hk' with ⟨rfl, heq⟩ | ⟨-, hk'⟩
    · rfl
    · exact absurd rfl (hne hk')
    · exact absurd heq (hne hk)
    · exact h.inj hk hk'
  · change _ = if k = clip key then some value else headers k
    by_cases hkey : k = clip key
    · rw [if_pos hkey, hkey, Finmap.lookup_insert, Option.bind_some, hnew]
    · rw [if_neg hkey, Finmap.lookup_insert_of_ne _ hkey, ← h.values k]
      rcases hl : M.lookup k with _ | p
      · rfl
      · exact hold k p hkey hl

/-- **A header that is new.** -/
theorem insert_new (h : HeaderTable hash heap0 heap ht M headers) {key : CStr} (value : CStr)
    (hnone : M.lookup (clip key) = none) (hi : Inv hash ht' (M.insert (clip key) heap.next)) :
    HeaderTable hash heap0 (strdup heap value).2 ht' (M.insert (clip key) heap.next)
      (RespOp.header headers (.addHeader key value)) := by
  refine h.assign hi ?_ (alloc_cell heap value) fun k p _ hp =>
    alloc_cell_of_ne heap value (h.grown.lt_next ⟨k, hp⟩).ne
  refine cast (congrArg _ (Set.ext fun p => ?_)) (h.grown.alloc value)
  simp only [Set.mem_insert_iff, Set.mem_ofPred_eq, lookup_insert_iff]
  constructor
  · rintro (rfl | ⟨k, hk⟩)
    · exact ⟨_, .inl ⟨rfl, rfl⟩⟩
    · refine ⟨k, .inr ⟨fun hc => ?_, hk⟩⟩
      rw [hc, hnone] at hk
      cases hk
  · rintro ⟨k, ⟨-, hp⟩ | ⟨-, hk⟩⟩
    · exact .inl hp
    · exact .inr ⟨k, hk⟩

/-- **A header that is set again**: the copy it had is freed. -/
theorem replace (h : HeaderTable hash heap0 heap ht M headers) {key : CStr} (value : CStr) {old : ℕ}
    (hsome : M.lookup (clip key) = some old) (hi : Inv hash ht' (M.insert (clip key) heap.next)) :
    ∃ heap', freeCopy (strdup heap value).2 old = .ok heap' ∧
      HeaderTable hash heap0 heap' ht' (M.insert (clip key) heap.next)
        (RespOp.header headers (.addHeader key value)) := by
  have hlt : old < heap.next := h.grown.lt_next ⟨_, hsome⟩
  obtain ⟨heap', hfree, hg, hcell⟩ := (h.grown.alloc value).free (p := old) (.inr ⟨_, hsome⟩)
  refine ⟨heap', by rw [freeCopy, strdup, hfree]; rfl, h.assign hi ?_ ?_ fun k p hk hp => ?_⟩
  · refine cast (congrArg _ (Set.ext fun p => ?_)) hg
    simp only [Set.mem_sdiff, Set.mem_singleton_iff, Set.mem_insert_iff, Set.mem_ofPred_eq,
      lookup_insert_iff]
    constructor
    · rintro ⟨rfl | ⟨k, hk⟩, hne⟩
      · exact ⟨_, .inl ⟨rfl, rfl⟩⟩
      · refine ⟨k, .inr ⟨fun hc => hne ?_, hk⟩⟩
        rw [hc, hsome] at hk
        exact (Option.some.inj hk).symm
    · rintro ⟨k, ⟨-, rfl⟩ | ⟨hk, hp⟩⟩
      · exact ⟨.inl rfl, hlt.ne'⟩
      · exact ⟨.inr ⟨k, hp⟩, fun hc => hk (h.inj hp (hc ▸ hsome))⟩
  · rw [hcell _ hlt.ne', alloc_cell]
  · have hp0 : p ≠ old := fun hc => hk (h.inj hp (hc ▸ hsome))
    rw [hcell p hp0, alloc_cell_of_ne heap value (h.grown.lt_next ⟨k, hp⟩).ne]

/-- **The entries**, each with the value of its header. -/
theorem items (h : HeaderTable hash heap0 heap ht M headers) {k : CStr} {p : ℕ}
    (hp : (k, p) ∈ htableItems ht) : ∃ value, heap.cell p = some value ∧ headers k = some value :=
  h.cell_eq ((h.inv.rep k p).mpr (mem_htableItems.mp hp))

end HeaderTable

/-! ### The calls -/

/-- **A header is added**, where the insertion returns. -/
theorem crestRespAddHeader_spec {resp resp' : CrestResp} {key value : CStr}
    (h : HeaderTable hash heap0 heap resp.headers M headers)
    (hrun : crestRespAddHeader hash resp heap key value = .ok (resp', heap')) :
    resp'.body = resp.body ∧ HeaderTable hash heap0 heap' resp'.headers
      (M.insert (clip key) heap.next) (RespOp.header headers (.addHeader key value)) := by
  obtain ⟨ht1, hget, hi1, -⟩ := htableGet_spec h.inv key
  unfold crestRespAddHeader at hrun
  dsimp only at hrun
  rw [hget, ok_bind] at hrun
  rcases hl : M.lookup (clip key) with _ | old
  · simp only [hl, ofLookup, Bool.not_false, if_true] at hrun
    obtain ⟨⟨ht2, r⟩, hput, hrun⟩ := Base.bind_eq_ok.mp hrun
    cases hrun
    obtain ⟨hi2, -⟩ := htablePut_spec hi1 hput
    rw [mapPut, hl] at hi2
    exact ⟨rfl, h.insert_new value hl hi2⟩
  · simp only [hl, ofLookup, Bool.not_true, Bool.false_eq_true, if_false] at hrun
    obtain ⟨ht2, hxchg, hi2⟩ := htableXchg_spec hi1 key (strdup heap value).1
    rw [mapXchg, hl] at hxchg hi2
    obtain ⟨heap1, hfree, hnew⟩ := h.replace value hl hi2
    rw [hxchg, ok_bind] at hrun
    dsimp only at hrun
    rw [hfree, ok_bind] at hrun
    cases hrun
    exact ⟨rfl, hnew⟩

/-- What a handler has done: the headers are in the table and the text in the body. -/
structure Holds (hash : CStr → UInt64) (heap0 heap : Heap CStr) (resp : CrestResp) (headers : Headers)
    (text : List UInt8) : Prop where
  table : ∃ M, HeaderTable hash heap0 heap resp.headers M headers
  body : resp.body.Holds text

theorem holds_zero (hf : Fresh heap) : Holds hash heap heap CrestResp.zero (fun _ => none) [] :=
  ⟨⟨∅, headerTable_zero hf⟩, Buffer.holds_zero⟩

variable {resp resp' : CrestResp} {text : List UInt8}

/-- **Bytes are written** behind the body. -/
theorem crestRespWrite_spec (h : Holds hash heap0 heap resp headers text) (body : List UInt8) :
    ∃ resp', crestRespWrite resp body = .ok resp' ∧ resp'.headers = resp.headers ∧
      Holds hash heap0 heap resp' headers (text ++ body) := by
  obtain ⟨buffer, hwrite, hbody⟩ := bufferWrite_spec h.body body
  exact ⟨{ resp with body := buffer }, by rw [crestRespWrite, hwrite, ok_bind], rfl, h.table, hbody⟩

/-- **A call of a handler.** -/
theorem respOp_spec (h : Holds hash heap0 heap resp headers text) {op : RespOp}
    (hrun : respOp hash resp heap op = .ok (resp', heap')) :
    Holds hash heap0 heap' resp' (op.header headers) (text ++ op.text) := by
  cases op with
  | addHeader key value =>
    obtain ⟨M, hM⟩ := h.table
    obtain ⟨hbody, htable⟩ := crestRespAddHeader_spec hM hrun
    refine ⟨⟨_, htable⟩, ?_⟩
    rw [hbody, RespOp.text, List.append_nil]
    exact h.body
  | write body =>
    obtain ⟨resp1, hwrite, -, h1⟩ := crestRespWrite_spec h body
    rw [respOp, hwrite, ok_bind] at hrun
    cases hrun
    exact h1

theorem respond_holds : ∀ {ops : List RespOp} {resp : CrestResp} {heap : Heap CStr} {headers : Headers}
    {text : List UInt8}, Holds hash heap0 heap resp headers text →
    respond hash ops resp heap = .ok (resp', heap') →
      Holds hash heap0 heap' resp' (ops.foldl RespOp.header headers) (text ++ textOf ops)
  | [], resp, heap, headers, text, h, hrun => by
    cases hrun
    simpa [textOf] using h
  | op :: ops, resp, heap, headers, text, h, hrun => by
    obtain ⟨⟨resp1, heap1⟩, hop, hrun⟩ := Base.bind_eq_ok.mp hrun
    have hrest := respond_holds (respOp_spec h hop) hrun
    rwa [List.append_assoc] at hrest

/-- **The calls of a handler**, from an empty response on. -/
theorem respond_spec {ops : List RespOp} (hf : Fresh heap)
    (hrun : respond hash ops CrestResp.zero heap = .ok (resp', heap')) :
    Holds hash heap heap' resp' (headersOf ops) (textOf ops) :=
  respond_holds (holds_zero hf) hrun

/-! ### Sending -/

/-- A response with these headers, each once, and this body. -/
structure Response.Has (response : Response) (headers : Headers) (text : List UInt8) : Prop where
  body : response.body = text
  nodup : (response.headers.map Prod.fst).Nodup
  mem : ∀ k value, (k, value) ∈ response.headers ↔ headers k = some value

theorem addHeaders_spec (mhd : Mhd) : ∀ {items : List (CStr × ℕ)} (response : Response),
    (∀ it ∈ items, ∃ value, heap.cell it.2 = some value ∧ headers it.1 = some value) →
    (∃ r, addHeaders mhd heap items response = .ok r ∧ r.body = response.body ∧
      r.headers.map Prod.fst = response.headers.map Prod.fst ++ items.map Prod.fst ∧
      ∀ x ∈ r.headers, x ∈ response.headers ∨ headers x.1 = some x.2) ∨
    (addHeaders mhd heap items response = .error .abort ∧ ¬ mhd.Willing)
  | [], response, _ => .inl ⟨response, rfl, rfl, by simp, fun x hx => .inl hx⟩
  | (key, data) :: items, response, h => by
    obtain ⟨value, hcell, hvalue⟩ := h _ List.mem_cons_self
    unfold addHeaders
    rw [hcell]
    dsimp only
    by_cases hadd : mhd.addHeader response key value = true
    · rw [if_pos hadd]
      rcases addHeaders_spec mhd { response with headers := response.headers ++ [(key, value)] }
        fun it hit => h it (List.mem_cons_of_mem _ hit) with ⟨r, hrun, hbody, hkeys, hmem⟩ | hfail
      · refine .inl ⟨r, hrun, hbody, by simpa using hkeys, fun x hx => ?_⟩
        rcases hmem x hx with hold | hnew
        · rcases List.mem_append.mp hold with hold | hold
          · exact .inl hold
          · rw [List.mem_singleton.mp hold]
            exact .inr hvalue
        · exact .inr hnew
      · exact .inr hfail
    · rw [if_neg hadd]
      exact .inr ⟨rfl, fun hw => hadd (hw.add _ _ _)⟩

/-- **`crest_resp_send`** queues the headers and the body, unless `libmicrohttpd` refuses. -/
theorem crestRespSend_spec (mhd : Mhd) (h : Holds hash heap0 heap resp headers text)
    (conn code : ℕ) :
    (∃ resp' reply, crestRespSend mhd conn resp heap code = .ok (resp', reply) ∧
      reply.code = code ∧ reply.response.Has headers text ∧ Holds hash heap0 heap resp' headers []) ∨
    (crestRespSend mhd conn resp heap code = .error .abort ∧ ¬ mhd.Willing) := by
  obtain ⟨M, hM⟩ := h.table
  unfold crestRespSend
  dsimp only
  by_cases hcreate : mhd.createResponse resp.body.contents = true
  swap
  · rw [if_neg hcreate]
    exact .inr ⟨rfl, fun hw => hcreate (hw.create _)⟩
  rw [if_pos hcreate]
  rcases addHeaders_spec mhd ⟨resp.body.contents, []⟩
    fun it hit => hM.items (k := it.1) (p := it.2) hit with ⟨r, hrun, hbody, hkeys, hmem⟩ | ⟨hfail, hw⟩
  swap
  · rw [hfail]
    exact .inr ⟨rfl, hw⟩
  rw [hrun, ok_bind]
  by_cases hqueue : mhd.queueResponse conn ⟨code, r⟩ = true
  swap
  · rw [if_neg hqueue]
    exact .inr ⟨rfl, fun hw => hqueue (hw.queue _ _)⟩
  rw [if_pos hqueue]
  rw [List.map_nil, List.nil_append] at hkeys
  refine .inl ⟨_, _, rfl, rfl, ⟨hbody.trans h.body.contents, ?_, fun k value => ?_⟩,
    ⟨⟨M, hM⟩, Buffer.holds_zero⟩⟩
  · exact hkeys ▸ htableItems_nodup hM.inv
  · constructor
    · exact fun hx => (hmem _ hx).resolve_left List.not_mem_nil
    · intro hvalue
      obtain ⟨p, hp, hcell⟩ := Option.bind_eq_some_iff.mp ((hM.values k).trans hvalue)
      have hkey : k ∈ r.headers.map Prod.fst := by
        rw [hkeys]
        exact List.mem_map_of_mem (mem_htableItems.mpr ((hM.inv.rep k p).mp hp))
      obtain ⟨⟨k', value'⟩, hx, rfl⟩ := List.mem_map.mp hkey
      have hvalue' := (hmem _ hx).resolve_left List.not_mem_nil
      rw [hvalue] at hvalue'
      cases hvalue'
      exact hx

/-- **`crest_resp_send_error`** puts the reason behind what has been written. -/
theorem crestRespSendError_spec (mhd : Mhd) (h : Holds hash heap0 heap resp headers text)
    (conn code : ℕ) (reason : CStr) :
    (∃ resp' reply, crestRespSendError mhd conn resp heap code reason = .ok (resp', reply) ∧
      reply.code = code ∧ reply.response.Has headers (text ++ (reason.take reasonMaxLen).val) ∧
      Holds hash heap0 heap resp' headers []) ∨
    (crestRespSendError mhd conn resp heap code reason = .error .abort ∧ ¬ mhd.Willing) := by
  obtain ⟨resp1, hwrite, -, h1⟩ := crestRespWrite_spec h (reason.take reasonMaxLen).val
  unfold crestRespSendError
  rw [hwrite, ok_bind]
  exact crestRespSend_spec mhd h1 conn code

/-! ### Freeing -/

/-- **`crest_resp_free`** frees every copy once, and the heap is what it was. -/
theorem crestRespFree_spec (h : Holds hash heap0 heap resp headers text) :
    ∃ heap', crestRespFree resp heap = .ok (CrestResp.zero, heap') ∧ Grown heap0 heap' ∅ := by
  obtain ⟨M, hM⟩ := h.table
  have hlookup : ∀ {k p}, (k, p) ∈ htableItems resp.headers ↔ M.lookup k = some p := fun {k p} =>
    mem_htableItems.trans (hM.inv.rep k p).symm
  have hnodup : ((htableItems resp.headers).map Prod.snd).Nodup := by
    have hkeys := List.Nodup.of_map _ (htableItems_nodup hM.inv)
    refine (List.nodup_map_iff_inj_on hkeys).mpr ?_
    rintro ⟨k, p⟩ hx ⟨k', p'⟩ hy hp
    dsimp only at hp
    subst hp
    rw [hM.inj (hlookup.mp hx) (hlookup.mp hy)]
  obtain ⟨heap', hfree, hg⟩ := hM.grown.freeAll hnodup fun p => by
    simp [hlookup]
  exact ⟨heap', by rw [crestRespFree, hfree]; rfl, hg⟩

/-! ### Calls that return -/

variable {n : ℕ} {S : Finset CStr} {key : CStr}

theorem Ready.window (h : Ready hash n S ht) (hi : Inv hash ht M) : ∃ ht',
    htableResize hash ht probeWindow = .ok ht' ∧ Inv hash ht' M ∧ Ready hash n S ht' := by
  obtain ⟨ht1, hr, hi1, hcap, hsame⟩ := htableResize_window hi
  refine ⟨ht1, hr, hi1, ?_⟩
  by_cases hle : probeWindow ≤ ht.cap
  · rw [hsame hle]
    exact h
  · refine .inl ?_
    rw [hcap, max_eq_right (Nat.le_of_not_le hle)]
    decide

theorem Ready.get (h : Ready hash n S ht) (hi : Inv hash ht M) (key : CStr) : ∃ ht',
    htableGet hash ht key = .ok (ht', ofLookup (M.lookup (clip key))) ∧ Inv hash ht' M ∧
      Ready hash n S ht' := by
  obtain ⟨ht1, hr, -, hready⟩ := Ready.window h hi
  obtain ⟨ht2, hget, hi2, -⟩ := htableGet_spec hi key
  refine ⟨ht2, hget, hi2, ?_⟩
  unfold htableGet at hget
  rw [hr, ok_bind] at hget
  have heq : ht1 = ht2 := by
    rcases hf : findKey hash ht1 key with _ | j <;> rw [hf] at hget <;>
      exact congrArg Prod.fst (Except.ok.inj hget)
  exact heq ▸ hready

theorem Ready.xchg (h : Ready hash n S ht) (hi : Inv hash ht M) {value : ℕ} {r : HtableRet}
    (hrun : htableXchg hash ht key value = .ok (ht', r)) : Ready hash n S ht' := by
  obtain ⟨ht1, hr, hi1, hready⟩ := Ready.window h hi
  unfold htableXchg at hrun
  rw [hr, ok_bind] at hrun
  rcases hf : findKey hash ht1 key with _ | j <;> rw [hf] at hrun <;> cases hrun
  · exact hready
  · refine hready.imp id fun ⟨lo, a, hlo, hset⟩ => ⟨lo, a, hlo, hset.cap, hset.window, hset.le,
      fun hlt hna i k hk => ?_⟩
    have hkey := key_of_findKey hi1 hf
    rw [bucketAt_set (lt_length_of_key hkey)] at hk
    refine hset.homes hlt hna i k ?_
    split_ifs at hk with hij
    · rw [hij]
      exact hk
    · exact hk

/-- The names of the headers that some calls add. -/
def keysOf : List RespOp → Finset CStr
  | [] => ∅
  | .addHeader key _ :: ops => insert (clip key) (keysOf ops)
  | .write _ :: ops => keysOf ops

theorem crestRespAddHeader_returns (h : HeaderTable hash heap0 heap resp.headers M headers)
    (hready : Ready hash n S resp.headers) (hA : Apart hash n S) (hS : ∀ k ∈ S, clip k = k)
    (hn : n < 64) (hM : M.keys ⊆ S) (hkey : clip key ∈ S) (value : CStr) : ∃ resp' heap',
      crestRespAddHeader hash resp heap key value = .ok (resp', heap') ∧
        Ready hash n S resp'.headers := by
  obtain ⟨ht1, hget, hi1, hready1⟩ := Ready.get hready h.inv key
  unfold crestRespAddHeader
  dsimp only
  rw [hget, ok_bind]
  rcases hl : M.lookup (clip key) with _ | old
  · obtain ⟨ht2, r, hput, hready2⟩ := hready1.put hA hS hn hi1 hM hkey (strdup heap value).1
    simp only [ofLookup, Bool.not_false, if_true, hput, ok_bind]
    exact ⟨_, _, rfl, hready2⟩
  · obtain ⟨ht2, hxchg, hi2⟩ := htableXchg_spec hi1 key (strdup heap value).1
    have hready2 := Ready.xchg hready1 hi1 hxchg
    rw [mapXchg, hl] at hxchg hi2
    obtain ⟨heap1, hfree, -⟩ := h.replace value hl hi2
    simp only [ofLookup, Bool.not_true, Bool.false_eq_true, if_false, hxchg, ok_bind, hfree]
    exact ⟨_, _, rfl, hready2⟩

theorem respond_returns_from (hA : Apart hash n S) (hS : ∀ k ∈ S, clip k = k) (hn : n < 64) :
    ∀ {ops : List RespOp} {resp : CrestResp} {heap : Heap CStr} {headers : Headers} {M : KeyMap},
    HeaderTable hash heap0 heap resp.headers M headers → Ready hash n S resp.headers → M.keys ⊆ S →
    keysOf ops ⊆ S → ∀ {text : List UInt8}, resp.body.Holds text →
      ∃ r, respond hash ops resp heap = .ok r
  | [], resp, heap, _, _, _, _, _, _, _, _ => ⟨(resp, heap), rfl⟩
  | .addHeader key value :: ops, resp, heap, headers, M, h, hready, hM, hops, text, hbody => by
    have hkey : clip key ∈ S := hops (Finset.mem_insert_self _ _)
    obtain ⟨resp1, heap1, hadd, hready1⟩ := crestRespAddHeader_returns h hready hA hS hn hM hkey value
    obtain ⟨hbody1, h1⟩ := crestRespAddHeader_spec h hadd
    have hM1 : (M.insert (clip key) heap.next).keys ⊆ S := by
      intro k hk
      rcases (Finmap.mem_insert.mp (Finmap.mem_keys.mp hk)) with rfl | hk
      · exact hkey
      · exact hM (Finmap.mem_keys.mpr hk)
    rw [respond, respOp, hadd, ok_bind]
    exact respond_returns_from hA hS hn h1 hready1 hM1
      ((Finset.subset_insert _ _).trans hops) (hbody1 ▸ hbody)
  | .write body :: ops, resp, heap, headers, M, h, hready, hM, hops, text, hbody => by
    obtain ⟨buffer, hwrite, hbody1⟩ := bufferWrite_spec hbody body
    rw [respond, respOp, crestRespWrite, hwrite, ok_bind, ok_bind, ok_bind]
    have h1 : HeaderTable hash heap0 heap ({ resp with body := buffer } : CrestResp).headers M headers := h
    exact respond_returns_from hA hS hn h1 hready hM hops hbody1

/-- **The calls of a handler return** if the hashes of its header names are apart. -/
theorem respond_returns {ops : List RespOp} (hf : Fresh heap) (hn : n < 64)
    (hA : Apart hash n (keysOf ops)) : ∃ r, respond hash ops CrestResp.zero heap = .ok r := by
  have hclip : ∀ {l : List RespOp}, ∀ k ∈ keysOf l, clip k = k := by
    intro l
    induction l with
    | nil => exact fun k hk => absurd hk (Finset.notMem_empty k)
    | cons op l ih =>
      rcases op with ⟨key, value⟩ | body
      · intro k hk
        rcases Finset.mem_insert.mp hk with rfl | hk
        · exact clip_clip key
        · exact ih k hk
      · exact ih
  exact respond_returns_from hA hclip hn (headerTable_zero hf) (.inl (by decide)) (by simp)
    (Finset.Subset.refl _) Buffer.holds_zero

end Specs

end Optics.Utils.Responses
