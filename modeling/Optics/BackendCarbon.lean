import Optics.Normalize

/-! # The carbon backend

`backend_carbon.c`: the numbers of each record are sent to a carbon host, a line for each, over a
connection that is made when there is none and closed when `send` fails.

The host should read whole lines: what arrives on a connection should be lines, one after the other,
and at most a cut one at the end (`Framed`). A send that takes a part of a line is only warned about,
and the connection stays in use.

* `carbonDump_eq`: polling a record is a run of calls of `carbon_send`, with a line each;
* `carbonSend_cases`: what a call does to the connections;
* `carbon_iff`: every connection is framed iff nothing is sent behind a cut line. -/

namespace Optics.BackendCarbon

open Optics.Base Optics.Doubles Optics.LensSlots Optics.Lib.Decimals
open Optics.Utils.Keys Optics.Utils.Buffers Optics.Utils.Formats
open Optics.Polling Optics.BackendRest Optics.RestHistos Optics.Normalize

/-! ### The client -/

/-- `struct carbon`, its host and port apart. -/
structure Carbon where
  fd : ℤ
  lastAttempt : ℕ

/-- The bytes of a line that one `send` took. -/
structure Delivery where
  line : List UInt8
  n : ℕ
  n_pos : 0 < n
  n_le : n ≤ line.length

/-- The client, what it sent over the connections it has had, and over the newest one. -/
structure Client where
  carbon : Carbon
  closed : List (List Delivery)
  current : List Delivery

/-- The client as `optics_dump_carbon` makes it. -/
def Client.start : Client := ⟨⟨0, 0⟩, [], []⟩

/-- How a `send` ends. -/
inductive Sent where
  | failure
  /-- as many bytes were taken, or the whole line if it is shorter -/
  | bytes (n : ℕ)

/-- A call of `carbon_send`, and what the system calls in it return: the descriptor of
`socket_stream_connect`, which is positive if there is a connection, and the bytes of `send`. -/
structure Call where
  line : List UInt8
  ts : ℕ
  connect : ℤ
  send : Sent

/-- `carbon_connect`. -/
def carbonConnect (s : Client) (fd : ℤ) : Outcome (Bool × Client) := do
  opticsAssert (s.carbon.fd ≤ 0)
  let carbon := { s.carbon with fd := fd }
  if fd > 0 then .ok (true, ⟨carbon, s.closed ++ [s.current], []⟩)
  else .ok (false, { s with carbon := carbon })

/-- What the call delivers, if it sends. -/
def delivered (call : Call) : List Delivery :=
  match call.send with
  | .failure => []
  | .bytes n =>
    if h : 0 < min n call.line.length then [⟨call.line, _, h, Nat.min_le_right _ _⟩] else []

/-- `carbon_send` from `send` on: a failure closes the connection, a part of the line is warned
about. -/
def sendLine (s : Client) (call : Call) : Client :=
  let s := { s with current := s.current ++ delivered call }
  match call.send with
  | .failure => { s with carbon := { s.carbon with fd := -1 } }
  | .bytes _ => s

/-- `carbon_send`. -/
def carbonSend (s : Client) (call : Call) : Outcome Client :=
  if s.carbon.fd ≤ 0 then
    if s.carbon.lastAttempt = call.ts then .ok s
    else do
      let s := { s with carbon := { s.carbon with lastAttempt := call.ts } }
      let (ret, s) ← carbonConnect s call.connect
      if ret then .ok (sendLine s call) else .ok s
  else .ok (sendLine s call)

/-- Calls one after the other. -/
def run (s : Client) (calls : List Call) : Outcome Client := calls.foldlM carbonSend s

/-! ### Dumping a record -/

/-- `' '` -/
def space : UInt8 := 32

/-- `'\n'` -/
def newline : UInt8 := 10

/-- `carbon_dump_normalized`: the outcomes of the system calls and the sign bits of the numbers are
given by the number of the call. -/
def carbonDumpNormalized (signs : ℕ → Bool) (net : ℕ → ℤ × Sent) (poll : OpticsPoll)
    (ctx : Outcome (Client × ℕ)) (ts : ℕ) (key : CStr) (v : Double) :
    Outcome (Client × ℕ) × Bool :=
  (do
    let (s, i) ← ctx
    let buffer ← bufferPrintf Buffer.zero (poll.regionPrefix.val ++ dot :: poll.host.val)
    let buffer ← bufferPrintf buffer
      (dot :: (key.val ++ space :: (formatG (signOf signs poll i) v ++
        space :: (decimal ts ++ [newline]))))
    let s ← carbonSend s ⟨buffer.contents, ts, (net i).1, (net i).2⟩
    .ok (s, i + 1), true)

/-- `carbon_dump` of a record. -/
def carbonDump (signs : ℕ → Bool) (fpu : Fpu) (net : ℕ → ℤ × Sent) (poll : OpticsPoll) (s : Client)
    (i : ℕ) : Outcome (Client × ℕ) := do
  let (_, ctx) ← opticsPollNormalize fpu (carbonDumpNormalized signs net poll) poll (.ok (s, i))
  ctx

/-- The line for a number. -/
def metricLine (report : Report) : List UInt8 :=
  report.poll.regionPrefix.val ++ dot :: (report.poll.host.val ++ dot :: (report.key.val ++ space ::
    (formatG report.sign report.value ++ space :: (decimal report.poll.ts ++ [newline]))))

/-- The calls of `carbon_send` for numbers, from call `i` on. -/
def lineCalls (net : ℕ → ℤ × Sent) : List Report → ℕ → List Call
  | [], _ => []
  | report :: reports, i =>
    ⟨metricLine report, report.poll.ts, (net i).1, (net i).2⟩ :: lineCalls net reports (i + 1)

/-! ### What a call does -/

/-- **A call** leaves the connections as they are, makes one, or adds to the newest. -/
theorem carbonSend_cases (s : Client) (call : Call) : ∃ s', carbonSend s call = .ok s' ∧
    (s.carbon.fd ≤ 0 ∧ s'.closed = s.closed ∧ s'.current = s.current ∨
      s.carbon.fd ≤ 0 ∧ s'.closed = s.closed ++ [s.current] ∧ s'.current = delivered call ∨
      0 < s.carbon.fd ∧ s'.closed = s.closed ∧ s'.current = s.current ++ delivered call) := by
  have hsend (s : Client) : (sendLine s call).closed = s.closed ∧
      (sendLine s call).current = s.current ++ delivered call := by
    unfold sendLine
    cases call.send with
    | failure => exact ⟨rfl, rfl⟩
    | bytes n => exact ⟨rfl, rfl⟩
  unfold carbonSend
  by_cases hfd : s.carbon.fd ≤ 0
  · rw [if_pos hfd]
    by_cases hts : s.carbon.lastAttempt = call.ts
    · rw [if_pos hts]
      exact ⟨s, rfl, Or.inl ⟨hfd, rfl, rfl⟩⟩
    · rw [if_neg hts]
      by_cases hconnect : call.connect > 0
      · simp only [carbonConnect, opticsAssert_pos hfd, ok_bind, if_pos hconnect, if_true]
        exact ⟨_, rfl, Or.inr (Or.inl ⟨hfd, hsend _⟩)⟩
      · simp only [carbonConnect, opticsAssert_pos hfd, ok_bind, if_neg hconnect]
        exact ⟨_, rfl, Or.inl ⟨hfd, rfl, rfl⟩⟩
  · rw [if_neg hfd]
    exact ⟨_, rfl, Or.inr (Or.inr ⟨by omega, hsend s⟩)⟩

/-! ### Frames -/

/-- All of the line was taken. -/
def Delivery.Whole (d : Delivery) : Prop := d.n = d.line.length

/-- The bytes that were taken. -/
def Delivery.bytes (d : Delivery) : List UInt8 := d.line.take d.n

theorem Delivery.Whole.bytes_eq {d : Delivery} (h : d.Whole) : d.bytes = d.line :=
  List.take_of_length_le (Nat.le_of_eq h.symm)

/-- Whole lines, and at most a cut one behind which nothing was sent. -/
def Framed (conn : List Delivery) : Prop :=
  ∃ whole cut, conn = whole ++ cut ∧ (∀ d ∈ whole, d.Whole) ∧ cut.length ≤ 1

/-- The bytes on a connection. -/
def wire (conn : List Delivery) : List UInt8 := (conn.map Delivery.bytes).flatten

/-- **The bytes on a framed connection** are its lines, but for the last of which a part may miss. -/
theorem Framed.wire_eq {conn : List Delivery} (h : Framed conn) : ∃ lines rest,
    wire conn = lines.flatten ++ rest ∧ lines <+: conn.map Delivery.line ∧
      (rest = [] ∨ ∃ line, conn.map Delivery.line = lines ++ [line] ∧ rest <+: line) := by
  obtain ⟨whole, cut, rfl, hwhole, hcut⟩ := h
  have hbytes : whole.map Delivery.bytes = whole.map Delivery.line :=
    List.map_congr_left fun d hd => (hwhole d hd).bytes_eq
  refine ⟨whole.map Delivery.line, wire cut, ?_, ?_, ?_⟩
  · rw [wire, List.map_append, List.flatten_append, hbytes, wire]
  · rw [List.map_append]
    exact List.prefix_append _ _
  · obtain _ | ⟨d, _ | ⟨d', cut⟩⟩ := cut
    · exact Or.inl rfl
    · refine Or.inr ⟨d.line, by rw [List.map_append]; rfl, ?_⟩
      rw [wire, List.map_singleton, List.flatten_singleton]
      exact List.take_prefix _ _
    · simp at hcut

theorem framed_of_length_le_one {conn : List Delivery} (h : conn.length ≤ 1) : Framed conn :=
  ⟨[], conn, rfl, fun _ hd => absurd hd List.not_mem_nil, h⟩

theorem length_delivered_le (call : Call) : (delivered call).length ≤ 1 := by
  unfold delivered
  cases call.send with
  | failure => exact Nat.zero_le 1
  | bytes n =>
    dsimp only
    split
    · exact le_rfl
    · exact Nat.zero_le 1

/-- A delivery behind others leaves a frame iff the others are whole. -/
theorem framed_concat_iff {conn : List Delivery} {d : Delivery} :
    Framed (conn ++ [d]) ↔ ∀ x ∈ conn, x.Whole := by
  constructor
  · rintro ⟨whole, cut, heq, hwhole, hcut⟩ x hx
    have hconn : conn <+: whole ++ cut := heq ▸ List.prefix_append conn [d]
    have hstart : conn <+: whole := by
      refine List.prefix_of_prefix_length_le hconn (List.prefix_append _ _) ?_
      have hlen := congrArg List.length heq
      rw [List.length_append, List.length_append, List.length_singleton] at hlen
      omega
    exact hwhole x (hstart.subset hx)
  · intro h
    exact ⟨conn, [d], rfl, h, le_rfl⟩

theorem Framed.of_whole {conn : List Delivery} (h : ∀ x ∈ conn, x.Whole) : Framed conn :=
  ⟨conn, [], (List.append_nil conn).symm, h, Nat.zero_le 1⟩

/-- Sending keeps a frame unless bytes are delivered behind a cut line. -/
theorem framed_append_delivered_iff {conn : List Delivery} {call : Call} :
    Framed (conn ++ delivered call) ↔
      Framed conn ∧ ¬ (delivered call ≠ [] ∧ ∃ d ∈ conn, ¬ d.Whole) := by
  have hlen := length_delivered_le call
  obtain hnil | ⟨d, hd⟩ : delivered call = [] ∨ ∃ d, delivered call = [d] := by
    rcases hdel : delivered call with _ | ⟨d, _ | ⟨d', l⟩⟩
    · exact Or.inl rfl
    · exact Or.inr ⟨d, rfl⟩
    · rw [hdel] at hlen
      simp at hlen
  · rw [hnil, List.append_nil]
    simp
  · rw [hd, framed_concat_iff]
    constructor
    · rintro h
      refine ⟨Framed.of_whole h, ?_⟩
      rintro ⟨-, x, hx, hcut⟩
      exact hcut (h x hx)
    · rintro ⟨-, h⟩ x hx
      by_contra hcut
      exact h ⟨List.cons_ne_nil _ _, x, hx, hcut⟩

/-! ### Runs -/

/-- The connections there have been. -/
def Client.conns (s : Client) : List (List Delivery) := s.closed ++ [s.current]

/-- All connections are framed. -/
def LineFramed (s : Client) : Prop := ∀ conn ∈ s.conns, Framed conn

/-- The call delivers bytes over a connection on which a line was cut. -/
def SendsBehindCut (s : Client) (call : Call) : Prop :=
  0 < s.carbon.fd ∧ delivered call ≠ [] ∧ ∃ d ∈ s.current, ¬ d.Whole

/-- No call delivers bytes behind a cut line. -/
def NothingBehindCut : Client → List Call → Prop
  | _, [] => True
  | s, call :: calls => ¬ SendsBehindCut s call ∧
      ∀ s', carbonSend s call = .ok s' → NothingBehindCut s' calls

/-- **A step** keeps the frames iff nothing is delivered behind a cut line; what it delivers is
behind what was delivered before. -/
theorem carbonSend_spec (s : Client) (call : Call) : ∃ s', carbonSend s call = .ok s' ∧
    (LineFramed s' ↔ LineFramed s ∧ ¬ SendsBehindCut s call) ∧
    (s'.conns.flatten = s.conns.flatten ∨
      s'.conns.flatten = s.conns.flatten ++ delivered call) := by
  obtain ⟨s', hrun, hcases⟩ := carbonSend_cases s call
  refine ⟨s', hrun, ?_⟩
  unfold LineFramed SendsBehindCut Client.conns
  rcases hcases with ⟨hfd, hclosed, hcurrent⟩ | ⟨hfd, hclosed, hcurrent⟩ | ⟨hfd, hclosed, hcurrent⟩
  · rw [hclosed, hcurrent]
    exact ⟨⟨fun h => ⟨h, fun hcut => by omega⟩, fun h => h.1⟩, Or.inl rfl⟩
  · -- a new connection
    rw [hclosed, hcurrent]
    refine ⟨⟨fun h => ⟨fun conn hconn => ?_, fun hcut => by omega⟩, fun h conn hconn => ?_⟩,
      Or.inr (by simp)⟩
    · exact h conn (List.mem_append_left _ hconn)
    · rcases List.mem_append.mp hconn with hconn | hconn
      · exact h.1 conn hconn
      · rw [List.mem_singleton.mp hconn]
        exact framed_of_length_le_one (length_delivered_le call)
  · rw [hclosed, hcurrent]
    have hlast {conn : List Delivery} : (∀ c ∈ s.closed ++ [conn], Framed c) ↔
        (∀ c ∈ s.closed, Framed c) ∧ Framed conn := by
      simp only [List.mem_append, List.mem_singleton, or_imp, forall_and, forall_eq]
    rw [hlast, hlast, framed_append_delivered_iff]
    refine ⟨?_, Or.inr (by simp)⟩
    rw [and_assoc, and_iff_right hfd]

theorem line_delivered {call : Call} : ((delivered call).map Delivery.line).Sublist [call.line] := by
  unfold delivered
  cases call.send with
  | failure => exact List.nil_sublist _
  | bytes n =>
    dsimp only
    split
    · exact List.Sublist.refl _
    · exact List.nil_sublist _

/-- **A run** keeps the frames iff no call delivers bytes behind a cut line. -/
theorem run_spec : ∀ (calls : List Call) (s : Client), ∃ s', run s calls = .ok s' ∧
    (LineFramed s' ↔ LineFramed s ∧ NothingBehindCut s calls) ∧
    ∃ sent, s'.conns.flatten = s.conns.flatten ++ sent ∧
      (sent.map Delivery.line).Sublist (calls.map Call.line)
  | [], s => ⟨s, rfl, (and_iff_left trivial).symm, [], (List.append_nil _).symm,
      List.nil_sublist _⟩
  | call :: calls, s => by
    obtain ⟨s1, hstep, hframed, hsent⟩ := carbonSend_spec s call
    obtain ⟨s', hrun, hframed', sent', hsent', hlines'⟩ := run_spec calls s1
    have hnext : (∀ s2, carbonSend s call = .ok s2 → NothingBehindCut s2 calls) ↔
        NothingBehindCut s1 calls := by
      constructor
      · intro h
        exact h s1 hstep
      · intro h s2 hs2
        cases hstep.symm.trans hs2
        exact h
    refine ⟨s', ?_, ?_, ?_⟩
    · rw [run, List.foldlM_cons, hstep]
      exact hrun
    · rw [hframed', hframed, NothingBehindCut, hnext, and_assoc]
    · rcases hsent with hsent | hsent
      · exact ⟨sent', by rw [hsent', hsent], hlines'.cons _⟩
      · refine ⟨delivered call ++ sent', by rw [hsent', hsent, List.append_assoc], ?_⟩
        rw [List.map_append, List.map_cons]
        exact line_delivered.append hlines'

/-- **The connections are framed iff nothing is delivered behind a cut line**, for every sequence of
lines and outcomes; and the lines are delivered in their order. -/
theorem carbon_iff (calls : List Call) : ∃ s, run Client.start calls = .ok s ∧
    (s.conns.flatten.map Delivery.line).Sublist (calls.map Call.line) ∧
    (LineFramed s ↔ NothingBehindCut Client.start calls) := by
  obtain ⟨s, hrun, hframed, sent, hsent, hlines⟩ := run_spec calls Client.start
  have hstart : LineFramed Client.start := fun conn hconn => by
    rw [List.mem_singleton.mp hconn]
    exact framed_of_length_le_one (Nat.zero_le 1)
  refine ⟨s, hrun, ?_, hframed.trans (and_iff_right hstart)⟩
  rw [hsent]
  exact hlines

/-- A byte of the line `ab` and the whole line `c` arrive as the line `ac`. -/
theorem carbon_cut : ∃ s, run Client.start
      [⟨[97, 98, newline], 1, 5, .bytes 1⟩, ⟨[99, newline], 1, 5, .bytes 2⟩] = .ok s ∧
    s.conns.map wire = [[], [97, 99, newline]] ∧ ¬ LineFramed s := by
  refine ⟨_, rfl, rfl, fun h => ?_⟩
  have hwhole := framed_concat_iff.mp (h _ (List.mem_append_right _ List.mem_cons_self))
    ⟨[97, 98, newline], 1, by decide, by decide⟩ List.mem_cons_self
  cases hwhole

/-! ### The lines of records -/

/-- **Dumping a record** sends a line for each of its numbers. -/
theorem callAll_carbon (signs : ℕ → Bool) (net : ℕ → ℤ × Sent) (poll : OpticsPoll) :
    ∀ (reports : List (CStr × Double)) (s : Client) (i : ℕ), ∃ s',
      run s (lineCalls net (numbers signs poll reports i) i) = .ok s' ∧
      callAll (carbonDumpNormalized signs net poll) poll.ts reports (.ok (s, i)) =
        (true, .ok (s', i + reports.length))
  | [], s, i => ⟨s, rfl, rfl⟩
  | (key, v) :: reports, s, i => by
    let report : Report := ⟨poll, key, v, signOf signs poll i⟩
    obtain ⟨b1, hprint1, hb1⟩ := bufferPrintf_spec Buffer.holds_zero
      (poll.regionPrefix.val ++ dot :: poll.host.val)
    obtain ⟨b2, hprint2, hb2⟩ := bufferPrintf_spec hb1 (dot :: (key.val ++ space ::
      (formatG (signOf signs poll i) v ++ space :: (decimal poll.ts ++ [newline]))))
    have hline : b2.contents = metricLine report := by
      rw [hb2.contents, metricLine, List.nil_append, List.append_assoc]
      rfl
    obtain ⟨s1, hstep, -⟩ :=
      carbonSend_cases s ⟨metricLine report, poll.ts, (net i).1, (net i).2⟩
    obtain ⟨s', hrun, hcalls⟩ := callAll_carbon signs net poll reports s1 (i + 1)
    refine ⟨s', ?_, ?_⟩
    · rw [run, numbers, lineCalls, List.foldlM_cons, hstep]
      exact hrun
    · have hcb : carbonDumpNormalized signs net poll (.ok (s, i)) poll.ts key v =
          (.ok (s1, i + 1), true) := by
        unfold carbonDumpNormalized
        rw [ok_bind]
        dsimp only
        rw [hprint1, ok_bind, hprint2, ok_bind, hline, hstep, ok_bind]
      rw [callAll, hcb, List.length_cons, Nat.add_comm reports.length, ← Nat.add_assoc]
      exact hcalls

/-- **What `carbon_dump` does** with a record: a run of calls, a line for each number. -/
theorem carbonDump_eq (signs : ℕ → Bool) (fpu : Fpu) (net : ℕ → ℤ × Sent) {poll : OpticsPoll}
    (h : Walks poll.value) (s : Client) (i : ℕ) : ∃ s',
      run s (lineCalls net (numbers signs poll (calls fpu poll) i) i) = .ok s' ∧
      carbonDump signs fpu net poll s i = .ok (s', i + (calls fpu poll).length) := by
  obtain ⟨s', hrun, hcalls⟩ := callAll_carbon signs net poll (calls fpu poll) s i
  refine ⟨s', hrun, ?_⟩
  rw [carbonDump, opticsPollNormalize_spec fpu _ h, hcalls]
  rfl

end Optics.BackendCarbon
