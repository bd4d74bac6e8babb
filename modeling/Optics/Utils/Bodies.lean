import Optics.Base
import Mathlib.Algebra.GroupWithZero.Nat

/-! # Bodies of requests

`utils/crest`: `microhttpd_cb` is called with the chunks of a request's body, collects them in a
`struct body` and hands them to the resource's handler, which reads them with `crest_req_read`.

* `deliver_spec`: however the body is split, the request holds the whole of it;
* `reads_eq`: a read does not advance, each one starts over at the first byte;
* `reads_iff`: what is read is the body in order for a single read, and for several only where the
  body repeats its beginning. -/

namespace Optics.Utils.Bodies

open Optics.Base

/-- `struct body`: room for `cap` bytes, the first `pos` of which have arrived. -/
structure Body where
  cap : ℕ
  pos : ℕ
  data : List UInt8
  length_data : data.length = cap
  pos_le : pos ≤ cap

namespace Body

/-- The block as `calloc` clears it. -/
def new (cap : ℕ) : Body := ⟨cap, 0, List.replicate cap 0, List.length_replicate, Nat.zero_le _⟩

theorem length_splice {old chunk : List UInt8} {pos : ℕ} (h : pos + chunk.length ≤ old.length) :
    (old.take pos ++ chunk ++ old.drop (pos + chunk.length)).length = old.length := by
  simp only [List.length_append, List.length_take, List.length_drop]
  omega

/-- The bytes copied behind those that have arrived. -/
def push (body : Body) (chunk : List UInt8) (h : body.pos + chunk.length ≤ body.cap) : Body where
  cap := body.cap
  pos := body.pos + chunk.length
  data := body.data.take body.pos ++ chunk ++ body.data.drop (body.pos + chunk.length)
  length_data := (length_splice (body.length_data ▸ h)).trans body.length_data
  pos_le := h

/-- The bytes that have arrived. -/
def received (body : Body) : List UInt8 := body.data.take body.pos

theorem received_new (cap : ℕ) : (new cap).received = [] := List.take_zero

theorem length_received (body : Body) : body.received.length = body.pos := by
  have h1 := body.length_data
  have h2 := body.pos_le
  rw [received, List.length_take]
  omega

theorem received_push (body : Body) (chunk : List UInt8) (h : body.pos + chunk.length ≤ body.cap) :
    (body.push chunk h).received = body.received ++ chunk := by
  have hlen : (body.data.take body.pos ++ chunk).length = body.pos + chunk.length := by
    rw [List.length_append, ← received, length_received]
  change (body.data.take body.pos ++ chunk ++ body.data.drop _).take (body.pos + chunk.length) = _
  rw [List.take_left' hlen, received]

end Body

/-- `body_append`: bytes beyond the announced length are dropped. A copy that leaves the block is
open. -/
def bodyAppend (body : Body) (data : List UInt8) : Outcome Body :=
  let len := if w64 (body.pos + data.length) > body.cap then body.cap - body.pos else data.length
  if h : body.pos + (data.take len).length ≤ body.cap then .ok (body.push (data.take len) h)
  else .error .undefined

/-- `struct crest_req`: the body with its length, and the position of the next read. -/
structure Req where
  data : List UInt8
  dataLen : ℕ
  dataPos : ℕ

/-- How a call of `microhttpd_cb` ends: with more to come, or with the request processed. -/
inductive Reply where
  | more (args : Option Body)
  | process (req : Req)

/-- `microhttpd_cb` from the allocation on: a chunk is appended, the call without data ends the
request. -/
def bodyOrProcess (body : Option Body) (data : List UInt8) : Outcome Reply :=
  match body with
  | none => .ok (.process ⟨[], 0, 0⟩)
  | some body =>
    if data.length ≠ 0 then do
      let body ← bodyAppend body data
      .ok (.more (some body))
    else .ok (.process ⟨body.data, body.cap, 0⟩)

/-- `microhttpd_cb` in front of `crest_process`, for a parsed content-length. -/
def microhttpdCb (contentLength : ℤ) (args : Option Body) (data : List UInt8) : Outcome Reply :=
  match args with
  | some body => bodyOrProcess (some body) data
  | none =>
    if contentLength > 0 then
      let body := Body.new contentLength.toNat
      if data.length = 0 then .ok (.more (some body)) else bodyOrProcess (some body) data
    else bodyOrProcess none data

/-- The calls for one request, up to the one that processes it. -/
def deliver (contentLength : ℤ) : Option Body → List (List UInt8) → Outcome (Option Req)
  | _, [] => .ok none
  | args, data :: rest => do
    match ← microhttpdCb contentLength args data with
    | .more args => deliver contentLength args rest
    | .process req => .ok (some req)

/-- `crest_req_read`: the bytes copied, as many as the function returns. -/
def crestReqRead (req : Req) (max : ℕ) : List UInt8 × Req :=
  let leftover := req.dataLen - req.dataPos
  let len := if max > leftover then leftover else max
  (req.data.take len, req)

/-- What successive reads of the given sizes return. -/
def reads : Req → List ℕ → List (List UInt8)
  | _, [] => []
  | req, max :: sizes => (crestReqRead req max).1 :: reads (crestReqRead req max).2 sizes

/-! ### Delivery -/

theorem bodyAppend_spec (body : Body) (data : List UInt8) (h : body.pos + data.length ≤ body.cap)
    (hcap : body.cap < 2 ^ 64) : ∃ body', bodyAppend body data = .ok body' ∧
      body'.cap = body.cap ∧ body'.received = body.received ++ data := by
  have hle : ¬ w64 (body.pos + data.length) > body.cap := by
    rw [w64_eq (by omega)]
    omega
  refine ⟨body.push data h, ?_, rfl, body.received_push data h⟩
  unfold bodyAppend
  simp only [if_neg hle, List.take_length]
  exact dif_pos h

/-- The calls with a body allocated: the chunks that complete it, then the empty call. -/
theorem deliver_chunks (contentLength : ℤ) : ∀ (chunks : List (List UInt8)) (body : Body),
    (∀ c ∈ chunks, c ≠ []) → body.cap < 2 ^ 64 → body.pos + chunks.flatten.length = body.cap →
    deliver contentLength (some body) (chunks ++ [[]]) =
      .ok (some ⟨body.received ++ chunks.flatten, body.cap, 0⟩)
  | [], body, _, _, hfull => by
    have hpos : body.pos = body.cap := by simpa using hfull
    have hdata : body.received = body.data := by
      rw [Body.received, hpos, ← body.length_data, List.take_length]
    simp [deliver, microhttpdCb, bodyOrProcess, hdata]
  | chunk :: chunks, body, hne, hcap, hfull => by
    rw [List.flatten_cons, List.length_append] at hfull
    obtain ⟨body', happend, hcap', hreceived⟩ :=
      bodyAppend_spec body chunk (by omega) hcap
    have hpos' : body'.pos = body.pos + chunk.length := by
      rw [← body'.length_received, hreceived, List.length_append, body.length_received]
    have ih := deliver_chunks contentLength chunks body'
      (fun c hc => hne c (List.mem_cons_of_mem _ hc)) (by omega) (by omega)
    have hcall : microhttpdCb contentLength (some body) chunk = .ok (.more (some body')) := by
      have hchunk : chunk ≠ [] := hne chunk List.mem_cons_self
      simp [microhttpdCb, bodyOrProcess, hchunk, happend]
    rw [List.cons_append, deliver, hcall, ok_bind]
    simp only [ih, hreceived, hcap', List.flatten_cons, List.append_assoc]

/-- **The request holds the whole body**, whether or not a call without data comes first. -/
theorem deliver_spec {body : List UInt8} {chunks lead : List (List UInt8)}
    (hlead : lead = [] ∨ lead = [[]]) (hchunks : chunks.flatten = body) (hne : ∀ c ∈ chunks, c ≠ [])
    (hpos : body ≠ []) (hlen : body.length < 2 ^ 63) :
    deliver body.length none (lead ++ chunks ++ [[]]) = .ok (some ⟨body, body.length, 0⟩) := by
  have hlen0 : 0 < body.length := List.length_pos_iff.mpr hpos
  have hbody := deliver_chunks body.length chunks (Body.new body.length) hne
    (by change body.length < 2 ^ 64; omega) (by rw [hchunks]; exact Nat.zero_add _)
  rw [Body.received_new, hchunks, List.nil_append] at hbody
  refine Eq.trans ?_ hbody
  rcases hlead with rfl | rfl
  · -- the first chunk allocates the body and is appended to it
    cases chunks with
    | nil => exact absurd hchunks.symm hpos
    | cons chunk chunks =>
      have hchunk : chunk ≠ [] := hne chunk List.mem_cons_self
      simp [deliver, microhttpdCb, hlen0, hchunk]
  · simp [deliver, microhttpdCb, hlen0]

/-! ### Reads -/

/-- **Each read starts over at the first byte.** -/
theorem reads_eq (body : List UInt8) (sizes : List ℕ) :
    reads ⟨body, body.length, 0⟩ sizes = sizes.map body.take := by
  have hread (max : ℕ) : body.take (if max > body.length then body.length else max) =
      body.take max := by
    split
    · rw [List.take_length, List.take_of_length_le (by omega)]
    · rfl
  induction sizes with
  | nil => rfl
  | cons max sizes ih =>
    rw [reads, List.map_cons]
    simp only [crestReqRead, Nat.sub_zero, hread, ih]

/-- What the handler should have read: the beginning of the body up to the sum of the sizes, and
nothing once the whole of it was read. -/
structure Intact (body : List UInt8) (sizes : List ℕ) (outs : List (List UInt8)) : Prop where
  isPrefix : outs.flatten <+: body
  length : outs.flatten.length = min body.length sizes.sum
  further : ∀ before out after, outs = before ++ out :: after → before.flatten = body → out = []

/-- From `pos` on the body has, piece by piece, the bytes it begins with. -/
def Repeats (body : List UInt8) : ℕ → List ℕ → Prop
  | _, [] => True
  | pos, max :: sizes => (body.drop pos).take max = body.take max ∧ Repeats body (pos + max) sizes

instance decidableRepeats (body : List UInt8) :
    (pos : ℕ) → (sizes : List ℕ) → Decidable (Repeats body pos sizes)
  | _, [] => .isTrue trivial
  | pos, max :: sizes =>
    haveI := decidableRepeats body (pos + max) sizes
    inferInstanceAs (Decidable (_ ∧ _))

/-- At most one read, or reads of no more than the body, which repeats its beginning. -/
def OneReadOrRepeats (body : List UInt8) (sizes : List ℕ) : Prop :=
  sizes.length ≤ 1 ∨ sizes.sum ≤ body.length ∧ Repeats body 0 sizes

instance decidableOneReadOrRepeats (body : List UInt8) (sizes : List ℕ) :
    Decidable (OneReadOrRepeats body sizes) :=
  inferInstanceAs (Decidable (_ ∨ _))

theorem min_le_length_reads (body : List UInt8) (sizes : List ℕ) :
    min body.length sizes.sum ≤ (sizes.map body.take).flatten.length := by
  induction sizes with
  | nil => simp
  | cons max sizes ih =>
    simp only [List.map_cons, List.flatten_cons, List.length_append, List.length_take,
      List.sum_cons]
    omega

/-- Reads inside the body return what stands at `pos` iff the body repeats there. -/
theorem flatten_reads_iff (body : List UInt8) : ∀ (sizes : List ℕ) (pos : ℕ),
    pos + sizes.sum ≤ body.length →
    ((sizes.map body.take).flatten = (body.drop pos).take sizes.sum ↔ Repeats body pos sizes)
  | [], pos, _ => by simp [Repeats]
  | max :: sizes, pos, hle => by
    rw [List.sum_cons] at hle
    have ih := flatten_reads_iff body sizes (pos + max) (by omega)
    have hlen : (body.take max).length = ((body.drop pos).take max).length := by
      simp only [List.length_take, List.length_drop]
      omega
    rw [List.map_cons, List.flatten_cons, List.sum_cons, List.take_add, List.drop_drop, Repeats,
      ← ih]
    constructor
    · intro h
      obtain ⟨h1, h2⟩ := List.append_inj h hlen
      exact ⟨h1.symm, h2⟩
    · rintro ⟨h1, h2⟩
      rw [h1, h2]

/-- Several reads of more than the body return more bytes than it has. -/
theorem length_lt_length_reads {body : List UInt8} {sizes : List ℕ} (hpos : body ≠ [])
    (hsizes : ∀ max ∈ sizes, 0 < max) (htwo : 1 < sizes.length)
    (hsum : body.length < sizes.sum) : body.length < (sizes.map body.take).flatten.length := by
  have hlen0 : 0 < body.length := List.length_pos_iff.mpr hpos
  obtain _ | ⟨max, _ | ⟨max', sizes⟩⟩ := sizes
  · simp at htwo
  · simp at htwo
  · have h := min_le_length_reads body (max' :: sizes)
    have h1 : 0 < max := hsizes max (by simp)
    have h2 : 0 < max' := hsizes max' (by simp)
    rw [List.map_cons, List.flatten_cons, List.length_append, List.length_take]
    rw [List.sum_cons, List.sum_cons] at hsum
    rw [List.sum_cons] at h
    omega

theorem Intact.of_take {body : List UInt8} {sizes : List ℕ} {outs : List (List UInt8)}
    (hsum : sizes.sum ≤ body.length) (h : outs.flatten = body.take sizes.sum) :
    Intact body sizes outs where
  isPrefix := h ▸ List.take_prefix _ _
  length := by
    rw [h, List.length_take]
    omega
  further before out after hsplit hwhole := by
    have hlen := congrArg List.length h
    rw [hsplit, List.flatten_append, hwhole, List.length_append, List.length_take,
      List.flatten_cons, List.length_append] at hlen
    exact List.eq_nil_of_length_eq_zero (by omega)

theorem Intact.single {body : List UInt8} (hpos : body ≠ []) (max : ℕ) :
    Intact body [max] [body.take max] where
  isPrefix := by
    simpa using List.take_prefix max body
  length := by
    simp [Nat.min_comm]
  further before out after hsplit hwhole := by
    obtain _ | ⟨first, before⟩ := before
    · exact absurd hwhole.symm hpos
    · have hlen := congrArg List.length hsplit
      simp at hlen

theorem intact_iff {body : List UInt8} {sizes : List ℕ} (hpos : body ≠ [])
    (hsizes : ∀ max ∈ sizes, 0 < max) :
    Intact body sizes (sizes.map body.take) ↔ OneReadOrRepeats body sizes := by
  have hiff (hsum : sizes.sum ≤ body.length) := flatten_reads_iff body sizes 0 (by omega)
  simp only [List.drop_zero] at hiff
  constructor
  · intro h
    by_cases htwo : sizes.length ≤ 1
    · exact Or.inl htwo
    have hsum : sizes.sum ≤ body.length := by
      by_contra hlt
      have hmore := length_lt_length_reads hpos hsizes (by omega) (by omega)
      have hlen := h.length
      omega
    refine Or.inr ⟨hsum, (hiff hsum).mp ?_⟩
    have htake := List.prefix_iff_eq_take.mp h.isPrefix
    rwa [h.length, Nat.min_eq_right hsum] at htake
  · rintro (hone | ⟨hsum, hrepeats⟩)
    · obtain _ | ⟨max, _ | ⟨max', sizes⟩⟩ := sizes
      · exact Intact.of_take (Nat.zero_le _) rfl
      · exact Intact.single hpos max
      · simp at hone
    · exact Intact.of_take hsum ((hiff hsum).mpr hrepeats)

/-- **A body is read intact iff it is read at once or repeats its beginning**, however it was
split. -/
theorem reads_iff (body : List UInt8) (chunks lead : List (List UInt8)) (sizes : List ℕ)
    (hlead : lead = [] ∨ lead = [[]]) (hchunks : chunks.flatten = body) (hne : ∀ c ∈ chunks, c ≠ [])
    (hpos : body ≠ []) (hlen : body.length < 2 ^ 63) (hsizes : ∀ max ∈ sizes, 0 < max) :
    ∃ req, deliver body.length none (lead ++ chunks ++ [[]]) = .ok (some req) ∧
      (Intact body sizes (reads req sizes) ↔ OneReadOrRepeats body sizes) := by
  refine ⟨_, deliver_spec hlead hchunks hne hpos hlen, ?_⟩
  rw [reads_eq]
  exact intact_iff hpos hsizes

/-- The body `abc` in two chunks, read at once. -/
theorem reads_iff_abc : ∃ req, deliver 3 none [[97, 98], [99], []] = .ok (some req) ∧
    (Intact [97, 98, 99] [8] (reads req [8]) ↔ OneReadOrRepeats [97, 98, 99] [8]) :=
  reads_iff [97, 98, 99] [[97, 98], [99]] [] [8] (Or.inl rfl) rfl (by decide) (by decide)
    (by decide) (by decide)

/-- The body `ab` read byte by byte comes as `aa`. -/
theorem reads_restart : ∃ req, deliver 2 none [[97, 98], []] = .ok (some req) ∧
    reads req [1, 1] = [[97], [97]] ∧ ¬ Intact [97, 98] [1, 1] (reads req [1, 1]) := by
  refine ⟨⟨[97, 98], 2, 0⟩, rfl, rfl, fun h => ?_⟩
  have h := h.isPrefix
  revert h
  decide

end Optics.Utils.Bodies
